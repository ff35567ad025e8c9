import MyLinuxEnv.Vim.Align

open Text

namespace Vim

def erase (s : Str) : Str :=
  s.filter fun c => c ≠ '\n' ∧ c ≠ '\t'

-- The characters at which a line is broken.
def seps : Str :=
  ['{', '}', ',']

def Part.text : Part → Str
  | field f _ => f.text
  | string q  => q.quote

-- A field begins on a line of its own, behind as many tabs as there are braces around it, and a
-- string is in one piece. What is in front of them is the text `s`.
def LaidOut (out s : Str) : Part → Prop
  | .field f depth =>
    ∃ x n y, out = x ++ '\n' :: tabs depth ++ blanks n ++ y ∧ erase x ++ blanks n = s ∧
      y.head? = f.text.head?
  | .string q => ∃ x y, out = x ++ q.quote ++ y ∧ erase x = s

-- The strings that can be kept in one piece.
def Part.Calm : Part → Prop
  | field _ _ => True
  | string q  => ∀ c ∈ q.text, c ∉ seps

-- The aligned text follows the structure of the value.
structure Follows (v : Value) : Prop where
  erased : erase (alignVar v.text).alignedLine = v.text
  parts  : ∀ o ∈ v.parts [] 0, LaidOut (alignVar v.text).alignedLine o.1 o.2
  depth  : (alignVar v.text).tabDepth = 0

section Loop

variable {self : Aligner} {s t : Str} {c : Char}

def out (s : Str) : Str :=
  (alignVar s).alignedLine

def depth (s : Str) : Int :=
  (alignVar s).tabDepth

-- What is added for a character at the given depth.
def block (depth : Int) (c : Char) : Str :=
  if c = '{' then '\n' :: tabs depth ++ '{' :: '\n' :: tabs (depth + 1)
  else if c = '}' then '\n' :: tabs (depth - 1) ++ '}' :: '\n' :: tabs (depth - 1)
  else if c = ',' then ',' :: '\n' :: tabs depth
  else [c]

def shift (c : Char) : Int :=
  if c = '{' then 1 else if c = '}' then -1 else 0

theorem alignChar_eq (h : self.wasEqual = false) (c : Char) :
    alignChar self c =
      ⟨self.alignedLine ++ block self.tabDepth c, self.tabDepth + shift c, false⟩ := by
  simp only [alignChar, block, shift, h]
  split
  case isTrue => simp
  case isFalse =>
    split
    case isTrue => simp [Int.sub_eq_add_neg]
    case isFalse =>
      split
      case isTrue  => simp
      case isFalse => simp

theorem wasEqual_alignVar (s : Str) : (alignVar s).wasEqual = false := by
  induction s using List.reverseRecOn
  case nil => rfl
  case append_singleton s c hi =>
    rw [alignVar, List.foldl_append]
    exact congrArg Aligner.wasEqual <| alignChar_eq hi c

theorem alignVar_concat (s : Str) (c : Char) :
    alignVar (s ++ [c]) = ⟨out s ++ block (depth s) c, depth s + shift c, false⟩ := by
  rw [alignVar, List.foldl_append]
  exact alignChar_eq (wasEqual_alignVar s) c

theorem out_concat (s : Str) (c : Char) : out (s ++ [c]) = out s ++ block (depth s) c :=
  congrArg Aligner.alignedLine <| alignVar_concat s c

theorem depth_concat (s : Str) (c : Char) : depth (s ++ [c]) = depth s + shift c :=
  congrArg Aligner.tabDepth <| alignVar_concat s c

theorem exists_out_append (s t : Str) : ∃ z, out (s ++ t) = out s ++ z := by
  induction t using List.reverseRecOn
  case nil => exact ⟨[], by simp⟩
  case append_singleton t c hi =>
    have ⟨z, hz⟩ := hi
    exact ⟨z ++ block (depth (s ++ t)) c,
      by rw [← List.append_assoc, out_concat, hz, List.append_assoc]⟩

theorem block_of_not_mem (h : c ∉ seps) (d : Int) : block d c = [c] := by
  have ⟨ho, hc, hk⟩ : c ≠ '{' ∧ c ≠ '}' ∧ c ≠ ',' := by simpa [seps] using h
  simp [block, ho, hc, hk]

theorem shift_of_not_mem (h : c ∉ seps) : shift c = 0 := by
  have ⟨ho, hc, _⟩ : c ≠ '{' ∧ c ≠ '}' ∧ c ≠ ',' := by simpa [seps] using h
  simp [shift, ho, hc]

-- A text without separators is copied.
theorem alignVar_append_plain (h : ∀ c ∈ t, c ∉ seps) :
    out (s ++ t) = out s ++ t ∧ depth (s ++ t) = depth s := by
  induction t using List.reverseRecOn
  case nil => simp
  case append_singleton t c hi =>
    have ⟨ht, hc⟩ := List.forall_mem_append.mp h
    have hc := hc c <| List.mem_singleton_self c
    have ⟨ho, hd⟩ := hi ht
    rw [← List.append_assoc, out_concat, depth_concat, block_of_not_mem hc,
      shift_of_not_mem hc, ho, hd]
    simp

end Loop

section Erase

variable {s t : Str}

@[simp]
theorem erase_append (s t : Str) : erase (s ++ t) = erase s ++ erase t :=
  List.filter_append ..

theorem erase_eq_self (h : ∀ c ∈ s, c ≠ '\n' ∧ c ≠ '\t') : erase s = s :=
  List.filter_eq_self.mpr <| by simpa using h

theorem erase_blanks (n : Nat) : erase (blanks n) = blanks n :=
  erase_eq_self <| by simp [blanks]

theorem erase_block (d : Int) (c : Char) : erase (block d c) = erase [c] := by
  simp only [block]
  split
  case isTrue h => simp [erase, tabs, h]
  case isFalse =>
    split
    case isTrue h => simp [erase, tabs, h]
    case isFalse =>
      split
      case isTrue h => simp [erase, tabs, h]
      case isFalse  => rfl

theorem erase_out (s : Str) : erase (out s) = erase s := by
  induction s using List.reverseRecOn
  case nil => rfl
  case append_singleton s c hi => rw [out_concat, erase_append, erase_append, erase_block, hi]

theorem erase_cons {c : Char} (hc : c ≠ '\n' ∧ c ≠ '\t') (s : Str) :
    erase (c :: s) = c :: erase s :=
  List.filter_cons_of_pos <| by simpa using hc

theorem Atom.erase_text (a : Atom) : erase a.text = a.text := by
  refine erase_eq_self fun c hc => ?_
  have hp := a.plain c hc
  simp only [List.mem_cons, not_or] at hp
  exact ⟨hp.right.right.right.right.right.left, hp.right.right.right.right.left⟩

theorem Quoted.erase_quote (q : Quoted) : erase q.quote = q.quote := by
  have hq : erase q.text = q.text := erase_eq_self fun c hc => by
    have hp := q.plain c hc
    simp only [List.mem_cons, not_or] at hp
    exact ⟨hp.right.right.left, hp.right.left⟩
  rw [quote, erase_append, erase_cons (by decide), hq]
  rfl

mutual

-- There is nothing to erase from a value on one line.
theorem Value.erase_text : (v : Value) → erase v.text = v.text
  | .atom a   => a.erase_text
  | .quoted q => q.erase_quote
  | .aggregate fs => by
    rw [Value.text, erase_append, erase_cons (by decide), fs.erase_text]
    rfl

theorem Fields.erase_text : (fs : Fields) → erase fs.text = fs.text
  | .last pre f post => by
    rw [Fields.text, erase_append, erase_append, erase_blanks, erase_blanks, f.erase_text]
  | .cons pre f post fs => by
    rw [Fields.text, erase_append, erase_append, erase_append, erase_blanks, erase_blanks,
      f.erase_text, erase_cons (by decide), fs.erase_text]

theorem Field.erase_text : (f : Field) → erase f.text = f.text
  | .named name pre post v => by
    rw [Field.text, erase_append, erase_append, erase_append, name.erase_text, erase_blanks,
      erase_cons (by decide), erase_blanks, v.erase_text]
  | .bare v => v.erase_text

end

end Erase

section Breaks

variable {s t x y : Str} {c : Char}

-- Every separator is followed by a line break.
def Broken : Str → Prop
  | []     => True
  | c :: s => (c ∈ seps → s.head? = some '\n') ∧ Broken s

theorem Broken.append (hs : Broken s) (ht : Broken t) : Broken (s ++ t) := by
  induction s
  case nil => exact ht
  case cons c s hi =>
    have ⟨hc, hs⟩ := hs
    refine ⟨fun hm => ?_, hi hs⟩
    change (s ++ t).head? = _
    rw [List.head?_append, hc hm]
    rfl

theorem Broken.head? (h : Broken (x ++ c :: y)) (hc : c ∈ seps) : y.head? = some '\n' := by
  induction x
  case nil        => exact h.left hc
  case cons _ _ hi => exact hi h.right

theorem broken_of_not_mem (h : ∀ c ∈ s, c ∉ seps) : Broken s := by
  induction s
  case nil => trivial
  case cons c s hi =>
    have ⟨hc, hs⟩ := List.forall_mem_cons.mp h
    exact ⟨(absurd · hc), hi hs⟩

theorem broken_block (d : Int) (c : Char) : Broken (block d c) := by
  have ht (d : Int) : Broken ('\n' :: tabs d) := broken_of_not_mem <| by simp [tabs, seps]
  have hc {c : Char} (d : Int) : Broken (c :: '\n' :: tabs d) := ⟨fun _ => rfl, ht d⟩
  simp only [block]
  split
  case isTrue => exact (ht d).append (hc _)
  case isFalse =>
    split
    case isTrue => exact (ht _).append (hc _)
    case isFalse =>
      split
      case isTrue       => exact hc d
      case isFalse h h' h'' => exact broken_of_not_mem <| by simp [seps, h, h', h'']

theorem broken_out (s : Str) : Broken (out s) := by
  induction s using List.reverseRecOn
  case nil => trivial
  case append_singleton s c hi => exact out_concat s c ▸ hi.append (broken_block ..)

-- A string with a separator is broken behind it.
theorem calm_of_laidOut {q : Quoted} (h : LaidOut (out s) t (.string q)) :
    (Part.string q).Calm := by
  intro c hc hm
  have ⟨x, y, ho, _⟩ := h
  obtain ⟨a, b, hq⟩ := List.append_of_mem hc
  have hb : Broken ((x ++ '"' :: a) ++ c :: (b ++ '"' :: y)) := by
    have hb := broken_out s
    rw [ho, Quoted.quote, hq] at hb
    simpa using hb
  have hn := hb.head? hm
  cases b
  case nil => simp at hn
  case cons d b =>
    have hd : d = '\n' := by simpa using hn
    exact q.plain d (hq ▸ by simp) (hd ▸ by simp)

end Breaks

section Layout

variable {s t z : Str} {d : Nat} {o : Part}

theorem not_mem_seps_of_plain {a : Atom} {c : Char} (h : c ∈ a.text) : c ∉ seps := by
  have hp := a.plain c h
  simp only [List.mem_cons, not_or] at hp
  simp [seps, hp]

theorem not_mem_seps_of_blank {n : Nat} {c : Char} (h : c ∈ blanks n) : c ∉ seps := by
  rw [List.eq_of_mem_replicate h]
  decide

theorem Field.exists_head (f : Field) : ∃ c t, f.text = c :: t ∧ (c = '{' ∨ c ∉ seps) := by
  have ha (a : Atom) (u : Str) : ∃ c t, a.text ++ u = c :: t ∧ (c = '{' ∨ c ∉ seps) := by
    obtain ⟨c, t, hc⟩ := List.exists_cons_of_ne_nil a.nonempty
    have hm : c ∈ a.text := hc ▸ List.mem_cons_self
    exact ⟨c, t ++ u, by rw [hc, List.cons_append], .inr <| not_mem_seps_of_plain hm⟩
  cases f
  case named name _ _ _ => simpa [Field.text] using ha name _
  case bare v =>
    cases v
    case atom a       => simpa [Field.text, Value.text] using ha a []
    case quoted q     => exact ⟨'"', _, rfl, .inr (by decide)⟩
    case aggregate fs => exact ⟨'{', _, rfl, .inl rfl⟩

theorem LaidOut.append (h : LaidOut s t o) (z : Str) : LaidOut (s ++ z) t o := by
  cases o
  case string q =>
    have ⟨x, y, hs, ht⟩ := h
    exact ⟨x, y ++ z, by simp [hs], ht⟩
  case field f d =>
    obtain ⟨x, n, y, hs, ht, hy⟩ := h
    obtain ⟨c, t', hf, _⟩ := f.exists_head
    exact ⟨x, n, y ++ z, by simp [hs], ht, by simp [List.head?_append, hy, hf]⟩

-- The aligned text ends with the beginning of a line at the given depth.
def Started (s : Str) (d : Nat) : Prop :=
  ∃ x n, out s = x ++ '\n' :: tabs d ++ blanks n ∧ erase x ++ blanks n = s

theorem Started.append_blanks (h : Started s d) (n : Nat) : Started (s ++ blanks n) d := by
  obtain ⟨x, m, ho, hs⟩ := h
  have hb : blanks m ++ blanks n = blanks (m + n) := List.replicate_append_replicate
  refine ⟨x, m + n, ?_, by rw [← hb, ← List.append_assoc, hs]⟩
  rw [(alignVar_append_plain fun _ => not_mem_seps_of_blank).left, ho, List.append_assoc, hb]

theorem Started.laidOut (h : Started s d) (f : Field) (hd : depth s = d) (he : erase s = s) :
    LaidOut (out (s ++ f.text)) s (.field f d) := by
  obtain ⟨c, t, hf, hc⟩ := f.exists_head
  have ⟨z, hz⟩ := exists_out_append (s ++ [c]) t
  have ho : out (s ++ f.text) = out s ++ block d c ++ z := by
    rw [hf, List.append_cons, hz, out_concat, hd]
  cases hc
  case inl hc =>
    -- An opening brace begins a new line by itself.
    refine ⟨out s, 0, '{' :: '\n' :: tabs (d + 1) ++ z, ?_, ?_, by simp [hf, hc]⟩
    case refine_1 => simp [ho, hc, block, blanks]
    case refine_2 => simpa [blanks, erase_out] using he
  case inr hc =>
    have ⟨x, n, hx, hs⟩ := h
    exact ⟨x, n, c :: z, by simp [ho, hx, block_of_not_mem hc], hs, by simp [hf]⟩

theorem started_of_brace (hd : depth s = d) (he : erase s = s) : Started (s ++ ['{']) (d + 1) := by
  refine ⟨out s ++ '\n' :: tabs d ++ ['{'], 0, ?_, ?_⟩
  case refine_1 => simp [out_concat, block, hd, blanks]
  case refine_2 =>
    rw [erase_append, erase_append, erase_out, he]
    simp [erase, tabs, blanks]

theorem started_of_comma (hd : depth s = d) (he : erase s = s) : Started (s ++ [',']) d := by
  refine ⟨out s ++ [','], 0, ?_, ?_⟩
  case refine_1 => simp [out_concat, block, hd, blanks]
  case refine_2 =>
    rw [erase_append, erase_out, he]
    simp [erase, blanks]

mutual

-- A value leaves the depth as it is, and all its parts are laid out.
theorem Value.laidOut (v : Value) {s : Str} {d : Nat} (hd : depth s = d) (he : erase s = s)
    (hc : ∀ o ∈ v.parts s d, o.2.Calm) :
    depth (s ++ v.text) = d ∧ ∀ o ∈ v.parts s d, LaidOut (out (s ++ v.text)) o.1 o.2 := by
  match v with
  | .atom a =>
    have hp := alignVar_append_plain (s := s) (t := a.text) fun _ => not_mem_seps_of_plain
    exact ⟨hp.right.trans hd, by simp [Value.parts]⟩
  | .quoted q =>
    have hq : ∀ c ∈ q.quote, c ∉ seps := by
      have hq := hc (s, .string q) (List.mem_singleton_self _)
      simp only [Quoted.quote, List.cons_append, List.forall_mem_cons, List.forall_mem_append]
      exact ⟨by decide, hq, by decide⟩
    have ⟨ho, hd'⟩ := alignVar_append_plain (s := s) hq
    refine ⟨hd'.trans hd, fun o hm => ?_⟩
    rw [List.mem_singleton.mp hm]
    exact ⟨out s, [], by simp [Value.text, ho], by rw [erase_out, he]⟩
  | .aggregate fs =>
    have hd₁ : depth (s ++ ['{']) = (d + 1 : Nat) := by rw [depth_concat, hd]; rfl
    have he₁ : erase (s ++ ['{']) = s ++ ['{'] := by rw [erase_append, he]; rfl
    have ⟨hd₂, hp⟩ := fs.laidOut hd₁ he₁ (started_of_brace hd he) hc
    have ht : s ++ (Value.aggregate fs).text = s ++ ['{'] ++ fs.text ++ ['}'] := by
      simp [Value.text]
    refine ⟨?_, fun o ho => ?_⟩
    · have hs : shift '}' = -1 := rfl
      rw [ht, depth_concat, hd₂, hs]
      omega
    · rw [ht, out_concat]
      exact (hp o ho).append _

theorem Fields.laidOut (fs : Fields) {s : Str} {d : Nat} (hd : depth s = d) (he : erase s = s)
    (hs : Started s d) (hc : ∀ o ∈ fs.parts s d, o.2.Calm) :
    depth (s ++ fs.text) = d ∧ ∀ o ∈ fs.parts s d, LaidOut (out (s ++ fs.text)) o.1 o.2 := by
  have hb {s : Str} (n : Nat) := alignVar_append_plain (s := s) (t := blanks n)
    fun _ => not_mem_seps_of_blank
  have hd₁ (n : Nat) : depth (s ++ blanks n) = d := (hb n).right.trans hd
  have he₁ (n : Nat) : erase (s ++ blanks n) = s ++ blanks n := by
    rw [erase_append, he, erase_blanks]
  match fs with
  | .last pre f post =>
    have ⟨hd₂, hp⟩ := f.laidOut (hd₁ pre) (he₁ pre) (hs.append_blanks pre) hc
    have ht : s ++ (Fields.last pre f post).text = s ++ blanks pre ++ f.text ++ blanks post := by
      simp [Fields.text]
    refine ⟨by rw [ht, (hb post).right, hd₂], fun o hm => ?_⟩
    rw [ht, (hb post).left]
    exact (hp o hm).append _
  | .cons pre f post fs =>
    have ⟨hcf, hcs⟩ := List.forall_mem_append.mp hc
    have ⟨hd₂, hp⟩ := f.laidOut (hd₁ pre) (he₁ pre) (hs.append_blanks pre) hcf
    let s' := s ++ blanks pre ++ f.text ++ blanks post
    have hd₃ : depth s' = d := (hb post).right.trans hd₂
    have he₃ : erase s' = s' := by
      rw [erase_append, erase_append, he₁ pre, f.erase_text, erase_blanks]
    have hd₄ : depth (s' ++ [',']) = d := by rw [depth_concat, hd₃]; simp [shift]
    have he₄ : erase (s' ++ [',']) = s' ++ [','] := by rw [erase_append, he₃]; rfl
    have ⟨hd₅, hps⟩ := fs.laidOut hd₄ he₄ (started_of_comma hd₃ he₃) hcs
    have ht : s ++ (Fields.cons pre f post fs).text = s' ++ [','] ++ fs.text := by
      simp [Fields.text, s']
    refine ⟨ht ▸ hd₅, List.forall_mem_append.mpr ⟨fun o hm => ?_, ht ▸ hps⟩⟩
    have ⟨z, hz⟩ := exists_out_append (s ++ blanks pre ++ f.text) (blanks post ++ ',' :: fs.text)
    have hz : out (s ++ (Fields.cons pre f post fs).text) =
        out (s ++ blanks pre ++ f.text) ++ z := by
      rw [← hz]
      simp [Fields.text]
    rw [hz]
    exact (hp o hm).append _

theorem Field.laidOut (f : Field) {s : Str} {d : Nat} (hd : depth s = d) (he : erase s = s)
    (hs : Started s d) (hc : ∀ o ∈ f.parts s d, o.2.Calm) :
    depth (s ++ f.text) = d ∧ ∀ o ∈ f.parts s d, LaidOut (out (s ++ f.text)) o.1 o.2 := by
  have hf := hs.laidOut f hd he
  match f with
  | .bare v =>
    have ⟨hd', hp⟩ := v.laidOut hd he (List.forall_mem_cons.mp hc).right
    exact ⟨hd', List.forall_mem_cons.mpr ⟨hf, hp⟩⟩
  | .named name pre post v =>
    let s' := s ++ name.text ++ blanks pre ++ '=' :: blanks post
    have hd₁ : depth s' = d := by
      have hn : ∀ c ∈ name.text ++ blanks pre ++ '=' :: blanks post, c ∉ seps := by
        simp only [List.forall_mem_append, List.forall_mem_cons]
        exact ⟨⟨fun _ => not_mem_seps_of_plain, fun _ => not_mem_seps_of_blank⟩, by decide,
          fun _ => not_mem_seps_of_blank⟩
      have hp := alignVar_append_plain (s := s) hn |>.right
      simpa [s', hd] using hp
    have he₁ : erase s' = s' := by
      rw [erase_append, erase_append, erase_append, he, name.erase_text, erase_blanks,
        erase_cons (by decide), erase_blanks]
    have ⟨hd₂, hp⟩ := v.laidOut hd₁ he₁ (List.forall_mem_cons.mp hc).right
    have ht : s ++ (Field.named name pre post v).text = s' ++ v.text := by simp [Field.text, s']
    exact ⟨ht ▸ hd₂, List.forall_mem_cons.mpr ⟨hf, ht ▸ hp⟩⟩

end

end Layout

-- The aligned text follows the structure of a value exactly if no string in it has a separator.
theorem follows_iff (v : Value) : Follows v ↔ ∀ o ∈ v.parts [] 0, o.2.Calm := by
  refine ⟨fun h o hm => ?_, fun hc => ?_⟩
  case refine_1 =>
    have hl := h.parts o hm
    obtain ⟨s, o⟩ := o
    cases o
    case field  => trivial
    case string => exact calm_of_laidOut hl
  case refine_2 =>
    have ⟨hd, hp⟩ := v.laidOut (s := []) (d := 0) rfl rfl hc
    exact ⟨(erase_out v.text).trans v.erase_text, hp, hd⟩

def exampleQuoted : Quoted :=
  ⟨"a,b".toList, by decide⟩

def exampleValue : Value :=
  .aggregate <| .last 0 (.named ⟨"s".toList, by decide, by decide⟩ 1 1 <| .quoted exampleQuoted) 0

-- The string is broken at its comma.
theorem not_follows :
    exampleValue.text = "\x7bs = \"a,b\"\x7d".toList ∧ ¬Follows exampleValue := by
  refine ⟨rfl, fun h => ?_⟩
  have hp : ("\x7bs = ".toList, Part.string exampleQuoted) ∈ exampleValue.parts [] 0 :=
    .tail _ <| .head _
  exact calm_of_laidOut (h.parts _ hp) ',' (by decide) (by decide)

end Vim

import Mathlib.Algebra.Ring.Nat
import MyLinuxEnv.Reo.Basic

open Text Posix

namespace Reo

-- A command file lists the dependencies of a target between the definition of a variable and the
-- first use of it.
structure CmdFile where
  preamble   : List Str
  target     : Str
  deps       : List Str
  use        : Str
  blanks     : List Str
  eol        : Str
  noDefs     : ∀ line ∈ preamble, ¬definition <:+: line
  targetName : ¬reference <:+: target
  noRefs     : ∀ line ∈ deps, ¬reference <:+: line
  isUse      : reference <:+: use
  areBlank   : ∀ line ∈ blanks, ∀ c ∈ line, c.isWhitespace
  isEol      : eol = [] ∨ eol = ['\n']
  areLines   : AreLines <|
    preamble ++ (definition ++ target ++ " := \\\n".toList) :: deps ++ use :: blanks ++
      [reference ++ target ++ "):".toList ++ eol]

namespace CmdFile

def define (f : CmdFile) : Str :=
  definition ++ f.target ++ " := \\\n".toList

def closing (f : CmdFile) : Str :=
  reference ++ f.target ++ "):".toList ++ f.eol

def lines (f : CmdFile) : List Str :=
  f.preamble ++ f.define :: f.deps ++ f.use :: f.blanks ++ [f.closing]

def text (f : CmdFile) : Str :=
  f.lines.flatten

theorem lines_text (f : CmdFile) : Text.lines f.text = f.lines :=
  f.areLines.lines_flatten

-- The dependencies of `a.o` are itself and `/usr/b.h`.
def example₁ : CmdFile where
  preamble   := ["cmd_a.o := cc".toList ++ ['\n']]
  target     := "a.o".toList
  deps       := ["  $(wildcard /usr/b.h) \\".toList ++ ['\n']]
  use        := "a.o: $(deps_a.o)".toList ++ ['\n']
  blanks     := [[] ++ ['\n']]
  eol        := ['\n']
  noDefs     := by decide +kernel
  targetName := by decide +kernel
  noRefs     := by decide +kernel
  isUse      := by decide +kernel
  areBlank   := by decide +kernel
  isEol      := .inr rfl
  areLines   := .cons (by simp) <| .cons (l := "deps_a.o := \\".toList) (by simp) <|
    .cons (by simp) <| .cons (by simp) <| .cons (by simp) <|
    .cons (l := "$(deps_a.o):".toList) (by simp) .nil

theorem not_reference_define (f : CmdFile) : ¬reference <:+: f.define := by
  intro hr
  have hd : f.define = (definition ++ f.target) ++ ' ' :: ":= \\\n".toList := by simp [define]
  cases infix_append_sep (by decide) (hd ▸ hr)
  case inl hr => exact f.targetName <| infix_of_infix_append (by decide) hr
  case inr hr => exact absurd hr (by decide +kernel)

theorem definition_define (f : CmdFile) : definition <:+: f.define :=
  ⟨[], f.target ++ " := \\\n".toList, by simp [define]⟩

theorem reference_closing (f : CmdFile) : reference <:+: f.closing :=
  ⟨[], f.target ++ "):".toList ++ f.eol, by simp [closing]⟩

end CmdFile

theorem not_definition_of_blank {line : Str} (hb : ∀ c ∈ line, c.isWhitespace) :
    ¬definition <:+: line :=
  fun hd => absurd (hb 'd' <| hd.subset <| by decide) (by decide)

variable {h : Host} {tpath rpath line : Str} {headers : List Str}

theorem not_reference_of_not_definition (hd : ¬definition <:+: line) : ¬reference <:+: line :=
  fun hr => hd <| .trans ⟨"$(".toList, [], rfl⟩ hr

theorem headersLoop_skip {pre : List Str} (hp : ∀ line ∈ pre, ¬definition <:+: line)
    (headers cmdfile : List Str) :
    headersLoop h tpath rpath headers (pre ++ cmdfile) =
      headersLoop h tpath rpath headers cmdfile := by
  induction pre
  case nil => rfl
  case cons line pre hi =>
    have ⟨hl, hp⟩ := List.forall_mem_cons.mp hp
    rw [List.cons_append, headersLoop, if_neg, if_neg, hi hp]
    · exact mt isSome_find?_iff.mp hl
    · exact mt isSome_find?_iff.mp <| not_reference_of_not_definition hl

theorem headersLoop_define (hr : ¬reference <:+: line) (hd : definition <:+: line)
    (headers cmdfile : List Str) :
    headersLoop h tpath rpath headers (line :: cmdfile) =
      inHeaders h tpath rpath headers cmdfile := by
  rw [headersLoop, if_neg <| mt isSome_find?_iff.mp hr, if_pos <| isSome_find?_iff.mpr hd]

theorem headersLoop_stop (hr : reference <:+: line) (headers cmdfile : List Str) :
    headersLoop h tpath rpath headers (line :: cmdfile) = headers := by
  rw [headersLoop, if_pos <| isSome_find?_iff.mpr hr]

theorem inHeaders_deps {deps : List Str} (hn : ∀ line ∈ deps, ¬reference <:+: line)
    (hr : reference <:+: line) (headers cmdfile : List Str) :
    inHeaders h tpath rpath headers (deps ++ line :: cmdfile) =
      headersLoop h tpath rpath (headers ++ newPaths h tpath rpath headers deps) cmdfile := by
  rw [← foldl_collect]
  induction deps generalizing headers
  case nil => rw [List.nil_append, inHeaders, if_pos <| isSome_find?_iff.mpr hr, List.foldl_nil]
  case cons dep deps hi =>
    have ⟨hd, hn⟩ := List.forall_mem_cons.mp hn
    rw [List.cons_append, inHeaders, if_neg <| mt isSome_find?_iff.mp hd, hi hn, List.foldl_cons]

theorem newPaths_append (headers a b : List Str) :
    newPaths h tpath rpath headers (a ++ b) =
      newPaths h tpath rpath headers a ++
        newPaths h tpath rpath (headers ++ newPaths h tpath rpath headers a) b := by
  have he : headers ++ newPaths h tpath rpath headers (a ++ b) =
      headers ++ (newPaths h tpath rpath headers a ++
        newPaths h tpath rpath (headers ++ newPaths h tpath rpath headers a) b) := by
    rw [← foldl_collect, ← List.append_assoc, ← foldl_collect, ← foldl_collect, List.foldl_append]
  exact List.append_cancel_left he

-- The block between the definition and its use is found, and nothing behind it is.
theorem extractHeaders_text (f : CmdFile) (headers : List Str) :
    extractHeaders h tpath rpath headers f.text =
      (headers ++ newPaths h tpath rpath headers f.deps,
        (newPaths h tpath rpath headers f.deps).length) := by
  have hl : headersLoop h tpath rpath headers (lines f.text) =
      headers ++ newPaths h tpath rpath headers f.deps := by
    rw [f.lines_text, CmdFile.lines, List.append_assoc, List.append_assoc,
      headersLoop_skip f.noDefs,
      List.cons_append, headersLoop_define f.not_reference_define f.definition_define,
      List.cons_append, inHeaders_deps f.noRefs f.isUse, headersLoop_skip, headersLoop_stop]
    · exact f.reference_closing
    · exact fun line hb => not_definition_of_blank <| f.areBlank line hb
  simp only [extractHeaders, hl, List.length_append, Nat.add_sub_cancel_left]

theorem extractAllHeaders_texts (h : Host) (tpath rpath : Str) (files : List CmdFile)
    (headers : List Str) :
    (extractAllHeaders h tpath rpath headers (files.map CmdFile.text)).1 =
        headers ++ newPaths h tpath rpath headers (files.flatMap CmdFile.deps) ∧
      (extractAllHeaders h tpath rpath headers (files.map CmdFile.text)).2.sum =
        (newPaths h tpath rpath headers (files.flatMap CmdFile.deps)).length := by
  induction files generalizing headers
  case nil => simp [extractAllHeaders, newPaths]
  case cons f files hi =>
    obtain ⟨hl, hr⟩ := hi (headers ++ newPaths h tpath rpath headers f.deps)
    simp only [List.map_cons, List.flatMap_cons, extractAllHeaders, extractHeaders_text,
      newPaths_append, List.length_append, List.sum_cons]
    exact ⟨by rw [hl, List.append_assoc], by rw [hr]⟩

-- Over a whole build, the headers are the paths of all dependencies, each of them listed where it
-- appears for the first time, and every entry has been counted.
theorem extractAllHeaders_complete (h : Host) (tpath rpath : Str) (files : List CmdFile) :
    let paths := (files.flatMap CmdFile.deps).map (extractPath h · tpath rpath)
    let headers := (extractAllHeaders h tpath rpath [] (files.map CmdFile.text)).1
    let counts := (extractAllHeaders h tpath rpath [] (files.map CmdFile.text)).2
    headers = (paths.filter (· ≠ [])).eraseDups ∧ counts.sum = headers.length := by
  obtain ⟨hl, hr⟩ := extractAllHeaders_texts h tpath rpath files []
  have hp : newPaths h tpath rpath [] (files.flatMap CmdFile.deps) =
      (((files.flatMap CmdFile.deps).map
        (extractPath h · tpath rpath)).filter (· ≠ [])).eraseDups := by
    simp [newPaths]
  exact ⟨by rw [hl, hp, List.nil_append], by rw [hl, hr, List.nil_append]⟩

example : extractAllHeaders Paths.exampleHost ".".toList ".".toList []
    [CmdFile.example₁.text, CmdFile.example₁.text] = (["/usr/b.h".toList], [1, 0]) := by
  decide +kernel

end Reo

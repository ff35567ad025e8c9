import MyLinuxEnv.Logtrans.Basic

open Text Posix

namespace Logtrans

variable {h : Host} {rootPath fmt line : Str} {f : List Str}

-- Every line has been turned into its own record, and the loop has reached the end of the file.
structure Complete (h : Host) (rootPath fmt : Str) (f : List Str) : Prop where
  printed : (mainLoop h rootPath fmt f).printed.map .ok =
    f.map fun line => record h rootPath fmt (rstrip eol line)
  unread  : (mainLoop h rootPath fmt f).unread = []
  raised  : (mainLoop h rootPath fmt f).raised = none

theorem LogMessage.parse_ok (hl : line ≠ []) : ∃ msg, parse h line = .ok msg := by
  cases line
  case nil => contradiction
  case cons =>
    simp only [parse, List.head?_cons]
    split
    case isTrue => exact ⟨_, rfl⟩
    case isFalse =>
      split
      case _ => exact ⟨_, rfl⟩
      case _ => exact ⟨_, rfl⟩

theorem record_ok (hr : rootPath ≠ []) (hl : line ≠ []) :
    ∃ r, record h rootPath fmt line = .ok r := by
  have ⟨_, hp⟩ := LogMessage.parse_ok (h := h) hl
  have hg := List.getLast?_eq_some_getLast hr
  exact ⟨_, by simp [record, hp, hg, bind, Except.bind, pure, Except.pure]; rfl⟩

theorem isValidPath_ne_nil (hr : Paths.isValidPath h rootPath) : rootPath ≠ [] := by
  intro hn
  simp [hn, Paths.isValidPath, Host.isdir, Host.stat, Host.resolve, Host.lookup] at hr

theorem mainLoop_of_blank (hb : rstrip eol line = []) :
    mainLoop h rootPath fmt (line :: f) = ⟨[], f, none⟩ := by
  simp [mainLoop, hb]

theorem mainLoop_of_record {r : Str} (hb : rstrip eol line ≠ [])
    (hr : record h rootPath fmt (rstrip eol line) = .ok r) :
    mainLoop h rootPath fmt (line :: f) =
      { mainLoop h rootPath fmt f with printed := r :: (mainLoop h rootPath fmt f).printed } := by
  simp [mainLoop, hb, hr]

theorem Complete.cons_iff (hr : rootPath ≠ []) :
    Complete h rootPath fmt (line :: f) ↔ rstrip eol line ≠ [] ∧ Complete h rootPath fmt f := by
  by_cases hb : rstrip eol line = []
  case pos =>
    refine ⟨fun hc => ?_, fun ⟨hn, _⟩ => absurd hb hn⟩
    have hp := hc.printed
    simp [mainLoop_of_blank hb] at hp
  case neg =>
    have ⟨r, hrec⟩ := @record_ok h _ fmt _ hr hb
    have hm := mainLoop_of_record (f := f) hb hrec
    refine ⟨fun hc => ⟨hb, ?_⟩, fun ⟨_, hc⟩ => ?_⟩
    case refine_1 =>
      have ⟨hp, hu, hx⟩ := hc
      simp only [hm, List.map_cons, hrec, List.cons.injEq, true_and] at hp hu hx
      exact ⟨hp, hu, hx⟩
    case refine_2 =>
      have ⟨hp, hu, hx⟩ := hc
      exact ⟨by simp [hm, hrec, hp], by simp [hm, hu], by simp [hm, hx]⟩

theorem complete_iff_forall_not_blank (hr : rootPath ≠ []) :
    Complete h rootPath fmt f ↔ ∀ line ∈ f, rstrip eol line ≠ [] := by
  induction f
  case nil          => simpa using ⟨rfl, rfl, rfl⟩
  case cons line f hi => rw [Complete.cons_iff hr, hi, List.forall_mem_cons]

-- A log is translated to its end exactly if none of its lines is blank.
theorem mainLoop_complete_iff (hr : Paths.isValidPath h rootPath) (fmt log : Str) :
    Complete h rootPath fmt (lines log) ↔ ∀ line ∈ lines log, rstrip eol line ≠ [] :=
  complete_iff_forall_not_blank (isValidPath_ne_nil hr)

theorem mainLoop_complete_iff_in_workdir :
    Complete Paths.exampleHost ".".toList "MM".toList (lines "a\n\nb\n".toList) ↔
      ∀ line ∈ lines "a\n\nb\n".toList, rstrip eol line ≠ [] :=
  mainLoop_complete_iff (by decide) "MM".toList "a\n\nb\n".toList

-- The rest of the log is lost at the first blank line.
theorem mainLoop_not_complete :
    ¬∀ (h : Host) (rootPath fmt log : Str), Paths.isValidPath h rootPath →
      Complete h rootPath fmt (lines log) := by
  intro hc
  have hu := hc Paths.exampleHost ".".toList "MM".toList "a\n\nb\n".toList (by decide) |>.unread
  exact absurd hu (by decide)

end Logtrans

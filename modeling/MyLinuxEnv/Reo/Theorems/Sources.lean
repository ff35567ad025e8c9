import MyLinuxEnv.Reo.Basic

open Text Posix

namespace Reo

-- A dependency file is a rule line and at least one line behind it.
structure PFile where
  header   : Str
  first    : Str
  others   : List Str
  areLines : AreLines (header :: first :: others)
  isRule   : rule <:+: header
  noRules  : ∀ line ∈ first :: others, ¬rule <:+: line

namespace PFile

def text (f : PFile) : Str :=
  (f.header :: f.first :: f.others).flatten

-- The lines that name the dependencies.
def deps (f : PFile) : List Str :=
  f.first :: f.others

-- The rule line `a.o: a.c` and the dependency `/usr/b.h` behind it.
def example₁ : PFile where
  header   := "a.o: a.c".toList ++ ['\n']
  first    := "/usr/b.h".toList ++ ['\n']
  others   := []
  areLines := .cons (by simp) <| .cons (by simp) .nil
  isRule   := by decide +kernel
  noRules  := by decide +kernel

end PFile

variable {h : Host} {tpath rpath : Str}

theorem sourcesLoop_rule {line : Str} (hl : rule <:+: line) (sources pfile : List Str) :
    sourcesLoop h tpath rpath sources (line :: pfile) =
      sourcesLoop h tpath rpath sources pfile := by
  rw [sourcesLoop, if_pos <| isSome_find?_iff.mpr hl]

-- The line on which the outer loop hands over to the inner one gets lost.
theorem sourcesLoop_cons {line : Str} (hl : ¬rule <:+: line) (sources pfile : List Str) :
    sourcesLoop h tpath rpath sources (line :: pfile) =
      sources ++ newPaths h tpath rpath sources pfile := by
  rw [sourcesLoop, if_neg <| mt isSome_find?_iff.mp hl, foldl_collect]

theorem extractSourcesFromPfile_text (f : PFile) (sources : List Str) :
    extractSourcesFromPfile h tpath rpath sources f.text =
      (sources ++ newPaths h tpath rpath sources f.others,
        (newPaths h tpath rpath sources f.others).length) := by
  have hl : lines f.text = f.header :: f.first :: f.others := f.areLines.lines_flatten
  have hn : ¬rule <:+: f.first := f.noRules _ List.mem_cons_self
  simp only [extractSourcesFromPfile, hl, sourcesLoop_rule f.isRule, sourcesLoop_cons hn,
    List.length_append, Nat.add_sub_cancel_left]

-- A line in front of others adds nothing new to them, unless it contributes the first new path.
theorem newPaths_cons_eq_iff {sources ls : List Str} {line : Str} :
    newPaths h tpath rpath sources (line :: ls) = newPaths h tpath rpath sources ls ↔
      extractPath h line tpath rpath = [] ∨ extractPath h line tpath rpath ∈ sources ∨
      (newPaths h tpath rpath sources ls).head? = some (extractPath h line tpath rpath) := by
  simp only [newPaths, List.map_cons, head?_eraseDups]
  by_cases hp : extractPath h line tpath rpath ≠ [] ∧ extractPath h line tpath rpath ∉ sources
  case pos =>
    rw [List.filter_cons_of_pos (by simpa [List.count_eq_zero] using hp), eraseDups_cons_eq_iff,
      ← or_assoc, or_iff_right]
    exact fun hc => hc.elim hp.left hp.right
  case neg =>
    rw [List.filter_cons_of_neg (by simpa [List.count_eq_zero] using hp), ← or_assoc]
    exact iff_of_true rfl <| .inl <| or_iff_not_and_not.mpr hp

-- No dependency is lost exactly if the first line behind the rule contributes nothing on its own.
theorem extractSourcesFromPfile_eq_iff (h : Host) (tpath rpath : Str) (sources : List Str)
    (f : PFile) :
    extractSourcesFromPfile h tpath rpath sources f.text =
        (sources ++ newPaths h tpath rpath sources f.deps,
          (newPaths h tpath rpath sources f.deps).length) ↔
      extractPath h f.first tpath rpath = [] ∨ extractPath h f.first tpath rpath ∈ sources ∨
      (newPaths h tpath rpath sources f.others).head? =
        some (extractPath h f.first tpath rpath) := by
  rw [extractSourcesFromPfile_text, PFile.deps, ← newPaths_cons_eq_iff]
  constructor
  case mp =>
    intro he
    exact (List.append_cancel_left (Prod.mk.inj he).left).symm
  case mpr =>
    intro he
    rw [he]

-- The only dependency of a file is lost.
theorem extractSourcesFromPfile_ne :
    ¬∀ (h : Host) (tpath rpath : Str) (sources : List Str) (f : PFile),
      Paths.isValidPath h tpath →
      extractSourcesFromPfile h tpath rpath sources f.text =
        (sources ++ newPaths h tpath rpath sources f.deps,
          (newPaths h tpath rpath sources f.deps).length) := by
  intro hc
  have he := hc Paths.exampleHost ".".toList ".".toList [] PFile.example₁ (by decide)
  exact absurd he (by decide +kernel)

end Reo

import Mathlib.Data.String.Basic

/-!
# Joined text

Characters of strings that are joined with a separator.
-/

namespace JoinedText

theorem toList_intercalate_cons (sep s : String) {strings : List String} (hne : strings ≠ []) :
    (sep.intercalate (s :: strings)).toList =
      s.toList ++ (sep.toList ++ (sep.intercalate strings).toList) := by
  rw [String.intercalate_cons_of_ne_nil hne, String.toList_append, String.toList_append,
    List.append_assoc]

/-- What holds of every character of the parts and of the separator holds of the whole. -/
theorem forall_mem_intercalate {P : Char → Prop} {sep : String} {strings : List String}
    (hsep : ∀ c ∈ sep.toList, P c) (hstrings : ∀ s ∈ strings, ∀ c ∈ s.toList, P c) :
    ∀ c ∈ (sep.intercalate strings).toList, P c := by
  induction strings with
  | nil =>
    intro c hc
    simp at hc
  | cons s strings ih =>
    have hs := hstrings s List.mem_cons_self
    have hrest := ih (fun t ht => hstrings t (List.mem_cons_of_mem s ht))
    by_cases hnil : strings = []
    · rw [hnil, String.intercalate_singleton]
      exact hs
    · rw [toList_intercalate_cons sep s hnil]
      intro c hc
      rcases List.mem_append.mp hc with hc | hc
      · exact hs c hc
      · rcases List.mem_append.mp hc with hc | hc
        · exact hsep c hc
        · exact hrest c hc

end JoinedText

import DevenvTemplate.JoinedText
import Mathlib.Data.List.TakeWhile

/-!
# Settings files

Lines `name = word word …` as `nix.conf` has them: a line ends at `#` or at its
newline, blanks separate words, and the second word is `=`.  `readSettings_render`
is the round trip for settings made of words.
-/

namespace SettingsText

def isBlank (c : Char) : Bool := c == ' ' || c == '\t' || c == '\r'

/-- A character that a word may have. -/
def isWordChar (c : Char) : Bool := !isBlank c && c != '\n' && c != '#'

structure Word where
  text : String
  ne_empty : text ≠ ""
  plain : text.toList.all isWordChar = true

/-- One setting: its name and its values. -/
structure Setting where
  name : Word
  values : List Word

def Setting.line (s : Setting) : String :=
  s.name.text ++ " = " ++ String.intercalate " " (s.values.map Word.text)

def render (settings : List Setting) : String :=
  String.join (settings.map fun s => s.line ++ "\n")

/-! ### Reading -/

def words (line : List Char) : List (List Char) :=
  (line.splitOnP isBlank).filter fun w => !w.isEmpty

def readLine (line : List Char) : Option (String × List String) :=
  match (words (line.takeWhile (· != '#'))).map String.ofList with
  | name :: "=" :: values => some (name, values)
  | _ => none

def readSettings (text : String) : List (String × List String) :=
  (text.toList.splitOn '\n').filterMap readLine

/-! ### Words of a line -/

theorem Word.char (w : Word) {c : Char} (hc : c ∈ w.text.toList) :
    isBlank c = false ∧ c ≠ '\n' ∧ c ≠ '#' := by
  have hplain := List.all_eq_true.mp w.plain c hc
  simpa [isWordChar, and_assoc] using hplain

theorem words_append (xs ys : List Char) : words (xs ++ ' ' :: ys) = words xs ++ words ys := by
  rw [words, List.splitOnP_append_cons xs ys (by decide), List.filter_append]
  rfl

theorem words_word (w : Word) : words w.text.toList = [w.text.toList] := by
  have hsingle := List.splitOnP_eq_singleton (fun c hc => (w.char hc).1)
  have hne : w.text.toList ≠ [] := by
    intro h
    exact w.ne_empty (String.toList_eq_nil_iff.mp h)
  rw [words, hsingle]
  simp [hne]

theorem words_join (ws : List Word) :
    words (String.intercalate " " (ws.map Word.text)).toList = ws.map fun w => w.text.toList := by
  induction ws with
  | nil => decide
  | cons w ws ih =>
    by_cases hws : ws = []
    · rw [hws, List.map_singleton, String.intercalate_singleton, words_word]
      rfl
    · have hne : ws.map Word.text ≠ [] := by simpa using hws
      have htext : (String.intercalate " " ((w :: ws).map Word.text)).toList =
          w.text.toList ++ ' ' :: (String.intercalate " " (ws.map Word.text)).toList :=
        JoinedText.toList_intercalate_cons " " w.text hne
      rw [htext, words_append, words_word, ih]
      rfl

theorem words_line (s : Setting) :
    words s.line.toList = s.name.text.toList :: "=".toList :: s.values.map fun w => w.text.toList := by
  have htext : s.line.toList = s.name.text.toList ++ ' ' ::
      (['='] ++ ' ' :: (String.intercalate " " (s.values.map Word.text)).toList) := by
    simp [Setting.line, String.toList_append]
  have hsign : words ['='] = [['=']] := by decide
  rw [htext, words_append, words_append, words_word, words_join, hsign]
  rfl

/-! ### The round trip -/

theorem line_char (s : Setting) {c : Char} (hc : c ∈ s.line.toList) : c ≠ '\n' ∧ c ≠ '#' := by
  have hvalues : ∀ t ∈ s.values.map Word.text, ∀ c ∈ t.toList, c ≠ '\n' ∧ c ≠ '#' := by
    intro t ht c hc
    rcases List.mem_map.mp ht with ⟨w, _, rfl⟩
    exact (w.char hc).2
  rw [Setting.line, String.toList_append, String.toList_append] at hc
  rcases List.mem_append.mp hc with hc | hc
  · rcases List.mem_append.mp hc with hc | hc
    · exact (s.name.char hc).2
    · have hsign : " = ".toList.all (fun c => c != '\n' && c != '#') = true := by decide
      simpa using List.all_eq_true.mp hsign c hc
  · refine JoinedText.forall_mem_intercalate ?_ hvalues c hc
    intro c hc
    rw [List.mem_singleton.mp hc]
    exact ⟨by decide, by decide⟩

theorem readLine_line (s : Setting) :
    readLine s.line.toList = some (s.name.text, s.values.map Word.text) := by
  have hcomment : s.line.toList.takeWhile (· != '#') = s.line.toList := by
    rw [List.takeWhile_eq_self_iff]
    intro c hc
    simpa using (line_char s hc).2
  have hsign : String.ofList "=".toList = "=" := by decide
  rw [readLine, hcomment, words_line, List.map_cons, List.map_cons, hsign, List.map_map,
    String.ofList_toList]
  simp only [Option.some.injEq, Prod.mk.injEq, true_and]
  apply List.map_congr_left
  intro w _
  exact String.ofList_toList

/-- **Settings are read back as they were written.** -/
theorem readSettings_render (settings : List Setting) :
    readSettings (render settings) =
      settings.map fun s => (s.name.text, s.values.map Word.text) := by
  induction settings with
  | nil => decide
  | cons s settings ih =>
    have htext : (render (s :: settings)).toList =
        s.line.toList ++ '\n' :: (render settings).toList := by
      simp [render, String.toList_append]
    have hline : '\n' ∉ s.line.toList := fun h => (line_char s h).1 rfl
    rw [readSettings, htext, List.splitOn_append_cons_self_of_not_mem hline, List.filterMap_cons,
      readLine_line]
    rw [readSettings] at ih
    simp only [ih, List.map_cons]

end SettingsText

import DevenvTemplate.JoinedText
import Mathlib.Data.List.TakeWhile

/-!
# Shell text

What a shell makes of a small script: text in double quotes with its variables
expanded, `export` of such a text, comments, and `exec`.  The second half is the
command search of POSIX over a `PATH` value, in which an empty component means
the current directory.
-/

namespace ShellText

/-! ### Environments -/

abbrev Env := String → Option String

/-- The text `$name` stands for; an unset variable expands to nothing. -/
def Env.value (env : Env) (name : String) : String := (env name).getD ""

def Env.set (env : Env) (name value : String) : Env :=
  fun other => if other = name then some value else env other

@[simp] theorem Env.value_set (env : Env) (name value : String) :
    (env.set name value).value name = value := by
  simp [Env.value, Env.set]

/-! ### Text in double quotes -/

def isNameStart (c : Char) : Bool := c.isAlpha || c == '_'

def isNameChar (c : Char) : Bool := isNameStart c || c.isDigit

def isLiteral (c : Char) : Bool := c != '"' && c != '$' && c != '\\' && c != '\x60'

/-- After a dollar: the expansions other than `$name`. -/
def opensExpansion (c : Char) : Bool := c.isDigit || c ∈ "\x7b([@*#?-$!".toList

inductive QuoteState where
  | literal
  | escaped
  | dollar
  | variable (name : List Char)
deriving DecidableEq, Repr

/-- One character of quoted text: what it adds and the state after it, `none` once
    the quote is closed.  A substitution is not text and has no value here. -/
def literalStep (c : Char) : Option (List Char × Option QuoteState) :=
  if c = '"' then some ([], none)
  else if c = '$' then some ([], some .dollar)
  else if c = '\\' then some ([], some .escaped)
  else if c = '\x60' then none
  else some ([c], some .literal)

def quoteStep (env : Env) : QuoteState → Char → Option (List Char × Option QuoteState)
  | .literal, c => literalStep c
  | .escaped, c =>
    if c = '\n' then some ([], some .literal)
    else if isLiteral c then some (['\\', c], some .literal)
    else some ([c], some .literal)
  | .dollar, c =>
    if isNameStart c then some ([], some (.variable [c]))
    else if opensExpansion c then none
    else (literalStep c).map fun r => ('$' :: r.1, r.2)
  | .variable name, c =>
    if isNameChar c then some ([], some (.variable (name ++ [c])))
    else (literalStep c).map fun r => ((env.value (String.ofList name)).toList ++ r.1, r.2)

/-- The value of quoted text up to its closing quote, and the text after it. -/
def expandQuoted (env : Env) : QuoteState → List Char → Option (List Char × List Char)
  | _, [] => none
  | state, c :: text =>
    match quoteStep env state c with
    | none => none
    | some (out, none) => some (out, text)
    | some (out, some next) => (expandQuoted env next text).map fun r => (out ++ r.1, r.2)

theorem literalStep_of_isLiteral {c : Char} (hc : isLiteral c = true) :
    literalStep c = some ([c], some .literal) := by
  simp only [isLiteral, Bool.and_eq_true, bne_iff_ne, ne_eq] at hc
  rcases hc with ⟨⟨⟨hquote, hdollar⟩, hescape⟩, htick⟩
  rw [literalStep, if_neg hquote, if_neg hdollar, if_neg hescape, if_neg htick]

theorem expandQuoted_literal (env : Env) (s text : List Char) (hs : ∀ c ∈ s, isLiteral c = true) :
    expandQuoted env .literal (s ++ text) =
      (expandQuoted env .literal text).map fun r => (s ++ r.1, r.2) := by
  induction s with
  | nil => simp
  | cons c s ih =>
    have hc := literalStep_of_isLiteral (hs c List.mem_cons_self)
    have hrest := ih (fun d hd => hs d (List.mem_cons_of_mem c hd))
    simp only [List.cons_append, expandQuoted, quoteStep, hc, hrest, Option.map_map]
    rfl

theorem expandQuoted_name (env : Env) (name s text : List Char)
    (hs : ∀ c ∈ s, isNameChar c = true) :
    expandQuoted env (.variable name) (s ++ text) =
      expandQuoted env (.variable (name ++ s)) text := by
  induction s generalizing name with
  | nil => simp
  | cons c s ih =>
    have hc := hs c List.mem_cons_self
    have hrest := ih (name ++ [c]) (fun d hd => hs d (List.mem_cons_of_mem c hd))
    simp only [List.cons_append, expandQuoted, quoteStep, hc, if_true, hrest]
    simp

theorem expandQuoted_variable (env : Env) (c : Char) (name text : List Char)
    (hc : isNameStart c = true) (hname : name.all isNameChar = true) :
    expandQuoted env .literal ('$' :: c :: name ++ '"' :: text) =
      some ((env.value (String.ofList (c :: name))).toList, text) := by
  have hclose : expandQuoted env (.variable (c :: name)) ('"' :: text) =
      some ((env.value (String.ofList (c :: name))).toList, text) := by
    simp [expandQuoted, quoteStep, isNameChar, isNameStart, literalStep]
  have hcollect := expandQuoted_name env [c] name ('"' :: text) (List.all_eq_true.mp hname)
  rw [List.singleton_append, hclose] at hcollect
  have hdollar : quoteStep env .literal '$' = some ([], some .dollar) := rfl
  have hstart : quoteStep env .dollar c = some ([], some (.variable [c])) := by
    rw [quoteStep, if_pos hc]
  simp only [List.cons_append, expandQuoted, hdollar, hstart, hcollect]
  simp

theorem expandQuoted_length {env : Env} {state : QuoteState} {text value rest : List Char}
    (h : expandQuoted env state text = some (value, rest)) : rest.length < text.length := by
  induction text generalizing state value with
  | nil => cases h
  | cons c text ih =>
    rw [expandQuoted] at h
    rw [List.length_cons]
    cases hstep : quoteStep env state c with
    | none =>
      rw [hstep] at h
      cases h
    | some r =>
      obtain ⟨out, next⟩ := r
      rw [hstep] at h
      cases next with
      | none =>
        cases h
        omega
      | some next =>
        rcases Option.map_eq_some_iff.mp h with ⟨r, hr, heq⟩
        cases heq
        have := ih hr
        omega

/-! ### Scripts -/

def strip (word text : List Char) : Option (List Char) :=
  if word <+: text then some (text.drop word.length) else none

theorem strip_append (word text : List Char) : strip word (word ++ text) = some text := by
  rw [strip, if_pos (List.prefix_append word text), List.drop_left]

theorem strip_length {word text rest : List Char} (h : strip word text = some rest) :
    rest.length + word.length = text.length := by
  rw [strip] at h
  split at h
  · rename_i hpref
    cases h
    have := hpref.length_le
    rw [List.length_drop]
    omega
  · cases h

/-- `export name="…"` on a line of its own. -/
def exportStatement (env : Env) (text : List Char) : Option (Env × List Char) := do
  let assignment ← strip "export ".toList text
  let name := assignment.takeWhile isNameChar
  let quoted ← strip "=\"".toList (assignment.dropWhile isNameChar)
  let (value, after) ← expandQuoted env .literal quoted
  let rest ← strip "\n".toList after
  return (env.set (String.ofList name) (String.ofList value), rest)

theorem exportStatement_length {env env' : Env} {text rest : List Char}
    (h : exportStatement env text = some (env', rest)) : rest.length < text.length := by
  simp only [exportStatement, Option.bind_eq_bind, Option.pure_def, Option.bind_eq_some_iff,
    Option.some.injEq, Prod.mk.injEq] at h
  obtain ⟨assignment, hassignment, quoted, hquoted, ⟨value, after⟩, hvalue, last, hlast, _, rfl⟩ := h
  have h₁ := strip_length hassignment
  have h₂ := strip_length hquoted
  have h₃ := expandQuoted_length hvalue
  have h₄ : last.length + "\n".toList.length = after.length := strip_length hlast
  have h₅ := List.length_dropWhile_le isNameChar assignment
  omega

/-- A script of comments and exports that ends in `exec`: the environment the
    executed command gets, and its command line. -/
def runScript (env : Env) : List Char → Option (Env × List Char)
  | [] => none
  | c :: text =>
    if c = '#' then runScript env ((text.dropWhile (· != '\n')).drop 1)
    else
      match strip "exec ".toList (c :: text) with
      | some command => some (env, command.takeWhile (· != '\n'))
      | none =>
        match h : exportStatement env (c :: text) with
        | none => none
        | some (env', rest) =>
          have := exportStatement_length h
          runScript env' rest
termination_by text => text.length
decreasing_by
  · have := List.length_dropWhile_le (· != '\n') text
    simp only [List.length_drop, List.length_cons]
    omega
  · exact this

theorem runScript_comment (env : Env) (line text : List Char) (hline : '\n' ∉ line) :
    runScript env ('#' :: line ++ '\n' :: text) = runScript env text := by
  have hdrop : (line ++ '\n' :: text).dropWhile (· != '\n') = '\n' :: text := by
    rw [List.dropWhile_append_of_pos]
    · rfl
    · intro c hc
      have hne : c ≠ '\n' := fun heq => hline (heq ▸ hc)
      simpa using hne
  rw [List.cons_append, runScript, if_pos rfl, hdrop]
  rfl

theorem runScript_export (env : Env) (name : String) (quoted value text : List Char)
    (hname : name.toList.all isNameChar = true)
    (hvalue : expandQuoted env .literal quoted = some (value, '\n' :: text)) :
    runScript env ("export ".toList ++ (name.toList ++ ("=\"".toList ++ quoted))) =
      runScript (env.set name (String.ofList value)) text := by
  have htake : (name.toList ++ ("=\"".toList ++ quoted)).takeWhile isNameChar = name.toList := by
    rw [List.takeWhile_append_of_pos (List.all_eq_true.mp hname)]
    simp [isNameChar, isNameStart]
  have hdrop : (name.toList ++ ("=\"".toList ++ quoted)).dropWhile isNameChar =
      "=\"".toList ++ quoted := by
    rw [List.dropWhile_append_of_pos (List.all_eq_true.mp hname)]
    simp [isNameChar, isNameStart]
  have hstatement : exportStatement env ("export ".toList ++ (name.toList ++ ("=\"".toList ++ quoted)))
      = some (env.set name (String.ofList value), text) := by
    have hlast : strip "\n".toList ('\n' :: text) = some text := strip_append _ _
    simp only [exportStatement, strip_append, htake, hdrop, hvalue, hlast, Option.bind_eq_bind,
      Option.bind_some, Option.pure_def, String.ofList_toList]
  have hexec : strip "exec ".toList
      ("export ".toList ++ (name.toList ++ ("=\"".toList ++ quoted))) = none := by
    rw [strip, if_neg]
    simp
  have hcons : "export ".toList ++ (name.toList ++ ("=\"".toList ++ quoted)) =
      'e' :: ("xport ".toList ++ (name.toList ++ ("=\"".toList ++ quoted))) := by simp
  rw [hcons] at hexec hstatement ⊢
  rw [runScript, if_neg (by decide), hexec]
  simp only []
  split
  · rename_i hnone
    rw [hnone] at hstatement
    cases hstatement
  · rename_i hsome
    rw [hsome] at hstatement
    cases hstatement
    rfl

theorem runScript_exec (env : Env) (command : List Char) :
    runScript env ("exec ".toList ++ command) = some (env, command.takeWhile (· != '\n')) := by
  have hcons : "exec ".toList ++ command = 'e' :: ("xec ".toList ++ command) := by simp
  have hstrip := strip_append "exec ".toList command
  rw [hcons] at hstrip ⊢
  rw [runScript, if_neg (by decide), hstrip]

/-! ### Searching a command -/

def splitPath (path : String) : List String := (path.toList.splitOn ':').map String.ofList

theorem splitPath_append (s t : String) :
    splitPath (s ++ ":" ++ t) = splitPath s ++ splitPath t := by
  have htext : (s ++ ":" ++ t).toList = s.toList ++ ':' :: t.toList := by
    simp [String.toList_append]
  rw [splitPath, htext, List.splitOn_append_cons_self, List.map_append]
  rfl

theorem splitPath_empty : splitPath "" = [""] := by decide

/-- Joined directories are found again, unless there were none to join. -/
theorem splitPath_intercalate {dirs : List String} (hdirs : dirs ≠ [])
    (hcolon : ∀ dir ∈ dirs, ':' ∉ dir.toList) :
    splitPath (String.intercalate ":" dirs) = dirs := by
  have hlist : ∀ l ∈ dirs.map String.toList, ':' ∉ l := by
    intro l hl
    rcases List.mem_map.mp hl with ⟨dir, hdir, rfl⟩
    exact hcolon dir hdir
  have hsplit := List.splitOn_intercalate ':' hlist (by simpa using hdirs)
  rw [splitPath, String.toList_intercalate]
  have hsep : ":".toList = [':'] := rfl
  rw [hsep, hsplit, List.map_map]
  exact List.map_id'' (fun dir => String.ofList_toList) dirs

/-- The file a directory of the search offers for a command.  The empty directory
    is the current one, and a relative directory is taken from it. -/
def candidate (cwd dir name : String) : String :=
  if dir = "" then cwd ++ "/" ++ name
  else if dir.toList.head? = some '/' then dir ++ "/" ++ name
  else cwd ++ "/" ++ dir ++ "/" ++ name

def lookup (executable : String → Bool) (cwd name : String) (dirs : List String) : Option String :=
  (dirs.map fun dir => candidate cwd dir name).find? executable

theorem lookup_append (executable : String → Bool) (cwd name : String) (dirs dirs' : List String) :
    lookup executable cwd name (dirs ++ dirs') =
      (lookup executable cwd name dirs).or (lookup executable cwd name dirs') := by
  rw [lookup, List.map_append, List.find?_append]
  rfl

/-! ### Directories that quoted text can name -/

/-- A character that neither ends a component nor means anything in quotes. -/
def isPlain (c : Char) : Bool := c != ':' && isLiteral c

/-- A directory that can stand in a quoted `PATH` as it is. -/
structure SearchDir where
  text : String
  ne_empty : text ≠ ""
  plain : text.toList.all isPlain = true

namespace SearchDir

theorem no_colon (d : SearchDir) : ':' ∉ d.text.toList := by
  intro h
  have hplain := List.all_eq_true.mp d.plain _ h
  cases hplain

theorem literal (d : SearchDir) : ∀ c ∈ d.text.toList, isLiteral c = true := by
  intro c hc
  have hplain := List.all_eq_true.mp d.plain c hc
  exact (Bool.and_eq_true_iff.mp hplain).2

def below (d : SearchDir) (sub : SearchDir) : SearchDir where
  text := d.text ++ "/" ++ sub.text
  ne_empty := by
    intro h
    have htext := congrArg String.toList h
    simp at htext
  plain := by
    have hslash : "/".toList.all isPlain = true := by decide
    rw [String.toList_append, String.toList_append, List.all_append, List.all_append, d.plain,
      hslash, sub.plain]
    rfl

theorem literal_intercalate (dirs : List SearchDir) :
    ∀ c ∈ (String.intercalate ":" (dirs.map text)).toList, isLiteral c = true := by
  apply JoinedText.forall_mem_intercalate
  · intro c hc
    rw [List.mem_singleton.mp hc]
    decide
  · intro dir hdir c hc
    rcases List.mem_map.mp hdir with ⟨d, _, rfl⟩
    exact d.literal c hc

theorem splitPath_join {dirs : List SearchDir} (hdirs : dirs ≠ []) :
    splitPath (String.intercalate ":" (dirs.map text)) = dirs.map text := by
  apply splitPath_intercalate
  · simpa using hdirs
  · intro dir hdir
    obtain ⟨d, _, rfl⟩ := List.mem_map.mp hdir
    exact d.no_colon

end SearchDir

end ShellText

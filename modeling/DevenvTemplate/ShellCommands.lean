import DevenvTemplate.ShellText

/-!
# Shell scripts that write a file

What a shell makes of a script that creates a directory, writes a here-document to a file
in it and runs a program: the words of a command, the expansion of a here-document whose
delimiter is not quoted, and what the commands do to the files.  A command that fails, or
that is none of these, has no value here.
-/

namespace ShellText

/-! ### Files -/

inductive Node where
  | dir
  | file (contents : String)
deriving DecidableEq

/-- Files and directories by the text of their paths. -/
abbrev Files := String → Option Node

/-- The directories on the way to a path, and the path itself. -/
def directories (before : List Char) : List Char → List String
  | [] => [String.ofList before]
  | c :: text =>
    if c = '/' ∧ before ≠ [] then String.ofList before :: directories (before ++ [c]) text
    else directories (before ++ [c]) text

/-- `mkdir -p`, which fails where a file is in the way. -/
def Files.mkdirParents (files : Files) (path : String) : Option Files :=
  let dirs := directories [] path.toList
  if ∀ dir ∈ dirs, files dir = none ∨ files dir = some .dir then
    some fun other => if other ∈ dirs then some .dir else files other
  else none

/-- The directory that a path is in. -/
def parent (path : String) : String :=
  String.ofList ((path.toList.reverse.dropWhile (· != '/')).drop 1).reverse

/-- A redirection creates the file, but not its directory. -/
def Files.write (files : Files) (path contents : String) : Option Files :=
  if files (parent path) = some .dir ∧ files path ≠ some .dir then
    some fun other => if other = path then some (.file contents) else files other
  else none

theorem mem_directories (before text : List Char) :
    String.ofList (before ++ text) ∈ directories before text := by
  induction text generalizing before with
  | nil => simp [directories]
  | cons c text ih =>
    have hrest := ih (before ++ [c])
    rw [List.append_assoc, List.singleton_append] at hrest
    unfold directories
    split
    · exact List.mem_cons_of_mem _ hrest
    · exact hrest

theorem self_mem_directories (path : String) : path ∈ directories [] path.toList := by
  have h := mem_directories [] path.toList
  rwa [List.nil_append, String.ofList_toList] at h

/-- Directories on the way are not longer than the path. -/
theorem length_of_mem_directories {before text : List Char} {dir : String}
    (h : dir ∈ directories before text) : dir.toList.length ≤ before.length + text.length := by
  induction text generalizing before with
  | nil =>
    rw [directories, List.mem_singleton] at h
    subst h
    simp
  | cons c text ih =>
    rw [directories] at h
    have hrest (h : dir ∈ directories (before ++ [c]) text) :
        dir.toList.length ≤ before.length + (c :: text).length := by
      have := ih h
      simp only [List.length_append, List.length_singleton] at this
      simp only [List.length_cons]
      omega
    split at h
    · rcases List.mem_cons.mp h with rfl | h
      · simp
      · exact hrest h
    · exact hrest h

theorem parent_append (dir name : String) (hname : '/' ∉ name.toList) :
    parent (dir ++ "/" ++ name) = dir := by
  have htext : (dir ++ "/" ++ name).toList.reverse =
      name.toList.reverse ++ '/' :: dir.toList.reverse := by
    simp [String.toList_append]
  have hdrop : (name.toList.reverse ++ '/' :: dir.toList.reverse).dropWhile (· != '/') =
      '/' :: dir.toList.reverse := by
    rw [List.dropWhile_append_of_pos]
    · simp
    · intro c hc
      have hne : c ≠ '/' := fun heq => hname (heq ▸ List.mem_reverse.mp hc)
      simpa using hne
  rw [parent, htext, hdrop]
  simp

/-! ### Here-documents -/

/-- Text in a here-document means what it means in double quotes, but the quote is a
    character like others. -/
def isBodyLiteral (c : Char) : Bool := c != '$' && c != '\\' && c != '\x60'

def bodyStep (c : Char) : Option (List Char × QuoteState) :=
  if c = '$' then some ([], .dollar)
  else if c = '\\' then some ([], .escaped)
  else if c = '\x60' then none
  else some ([c], .literal)

def hereStep (env : Env) : QuoteState → Char → Option (List Char × QuoteState)
  | .literal, c => bodyStep c
  | .escaped, c =>
    if c = '\n' then some ([], .literal)
    else if isBodyLiteral c then some (['\\', c], .literal)
    else some ([c], .literal)
  | .dollar, c =>
    if isNameStart c then some ([], .variable [c])
    else if opensExpansion c then none
    else (bodyStep c).map fun r => ('$' :: r.1, r.2)
  | .variable name, c =>
    if isNameChar c then some ([], .variable (name ++ [c]))
    else (bodyStep c).map fun r => ((env.value (String.ofList name)).toList ++ r.1, r.2)

/-- What is pending where the document ends. -/
def QuoteState.flush (env : Env) : QuoteState → List Char
  | .literal => []
  | .escaped => ['\\']
  | .dollar => ['$']
  | .variable name => (env.value (String.ofList name)).toList

def expandHere (env : Env) : QuoteState → List Char → Option (List Char)
  | state, [] => some (state.flush env)
  | state, c :: text =>
    match hereStep env state c with
    | none => none
    | some (out, next) => (expandHere env next text).map fun rest => out ++ rest

theorem expandHere_literal (env : Env) (s text : List Char)
    (hs : ∀ c ∈ s, isBodyLiteral c = true) :
    expandHere env .literal (s ++ text) = (expandHere env .literal text).map fun r => s ++ r := by
  induction s with
  | nil => simp
  | cons c s ih =>
    have hc : hereStep env .literal c = some ([c], .literal) := by
      have hliteral := hs c List.mem_cons_self
      simp only [isBodyLiteral, Bool.and_eq_true, bne_iff_ne, ne_eq] at hliteral
      obtain ⟨⟨hdollar, hescape⟩, htick⟩ := hliteral
      rw [hereStep, bodyStep, if_neg hdollar, if_neg hescape, if_neg htick]
    have hrest := ih fun d hd => hs d (List.mem_cons_of_mem c hd)
    simp only [List.cons_append, expandHere, hc, hrest, Option.map_map]
    rfl

theorem expandHere_name (env : Env) (name s text : List Char)
    (hs : ∀ c ∈ s, isNameChar c = true) :
    expandHere env (.variable name) (s ++ text) = expandHere env (.variable (name ++ s)) text := by
  induction s generalizing name with
  | nil => simp
  | cons c s ih =>
    have hc := hs c List.mem_cons_self
    have hrest := ih (name ++ [c]) fun d hd => hs d (List.mem_cons_of_mem c hd)
    simp only [List.cons_append, expandHere, hereStep, hc, if_true, hrest]
    simp

/-- A variable that is followed by a character of no name. -/
theorem expandHere_variable (env : Env) (c d : Char) (name text : List Char)
    (hc : isNameStart c = true) (hname : name.all isNameChar = true)
    (hd : isNameChar d = false) (hliteral : isBodyLiteral d = true) :
    expandHere env .literal ('$' :: c :: name ++ d :: text) =
      (expandHere env .literal (d :: text)).map fun r =>
        (env.value (String.ofList (c :: name))).toList ++ r := by
  have hcollect := expandHere_name env [c] name (d :: text) (List.all_eq_true.mp hname)
  have hdollar : hereStep env .literal '$' = some ([], .dollar) := rfl
  have hstart : hereStep env .dollar c = some ([], .variable [c]) := by
    rw [hereStep, if_pos hc]
  have hbody : bodyStep d = some ([d], .literal) := by
    simp only [isBodyLiteral, Bool.and_eq_true, bne_iff_ne, ne_eq] at hliteral
    obtain ⟨⟨hdollar, hescape⟩, htick⟩ := hliteral
    rw [bodyStep, if_neg hdollar, if_neg hescape, if_neg htick]
  have hend : expandHere env (.variable (c :: name)) (d :: text) =
      (expandHere env .literal (d :: text)).map fun r =>
        (env.value (String.ofList (c :: name))).toList ++ r := by
    simp [expandHere, hereStep, hbody, hd, Function.comp_def]
  have hbegin (rest : List Char) : expandHere env .literal ('$' :: c :: rest) =
      expandHere env (.variable [c]) rest := by
    simp [expandHere, hdollar, hstart]
  rw [List.singleton_append] at hcollect
  rw [List.cons_append, List.cons_append, hbegin, hcollect, hend]

/-- The lines up to the delimiter, and those after it.  A line that is continued on the next
    one has no value here. -/
def hereBody (delimiter : List Char) : List (List Char) → Option (List (List Char) × List (List Char))
  | [] => none
  | line :: lines =>
    if line = delimiter then some ([], lines)
    else if line.getLast? = some '\\' then none
    else (hereBody delimiter lines).map fun r => (line :: r.1, r.2)

theorem hereBody_append (delimiter : List Char) (body lines : List (List Char))
    (hdelimiter : delimiter ∉ body) (hlines : ∀ line ∈ body, '\\' ∉ line) :
    hereBody delimiter (body ++ delimiter :: lines) = some (body, lines) := by
  induction body with
  | nil => simp [hereBody]
  | cons line body ih =>
    rw [List.mem_cons, not_or] at hdelimiter
    have hlast : line.getLast? ≠ some '\\' :=
      fun h => hlines line List.mem_cons_self (List.mem_of_getLast? h)
    have hrest := ih hdelimiter.2 fun l hl => hlines l (List.mem_cons_of_mem line hl)
    rw [List.cons_append, hereBody, if_neg (Ne.symm hdelimiter.1), if_neg hlast, hrest]
    rfl

theorem hereBody_length {delimiter : List Char} {lines body rest : List (List Char)}
    (h : hereBody delimiter lines = some (body, rest)) : rest.length < lines.length := by
  induction lines generalizing body with
  | nil => simp [hereBody] at h
  | cons line lines ih =>
    rw [hereBody] at h
    split at h
    · simp only [Option.some.injEq, Prod.mk.injEq] at h
      obtain ⟨_, rfl⟩ := h
      simp
    · split at h
      · simp at h
      · obtain ⟨r, hr, heq⟩ := Option.map_eq_some_iff.mp h
        simp only [Prod.mk.injEq] at heq
        obtain ⟨_, rfl⟩ := heq
        have := ih hr
        simp only [List.length_cons]
        omega

/-! ### Words -/

inductive Token where
  | word (text : String)
  | redirect                                      -- `>`
  | here (delimiter : String)                     -- `<<`, and a delimiter without quotes
deriving DecidableEq

/-- A character that means nothing outside quotes. -/
def isBareChar (c : Char) : Bool := c.isAlphanum || c ∈ "/._-+=%@:,".toList

/-- A token without quotes. -/
def bareToken (text : List Char) : Option Token :=
  match text with
  | ['>'] => some .redirect
  | '<' :: '<' :: delimiter =>
    if delimiter ≠ [] ∧ delimiter.all isBareChar = true then
      some (.here (String.ofList delimiter))
    else none
  | text => if text.all isBareChar = true then some (.word (String.ofList text)) else none

inductive WordState where
  | blank
  | bare (text : List Char)
  | quoted (value : List Char) (state : QuoteState)
  | closed (value : List Char)

/-- One character of a command: the tokens that it ends, and the state after it.  A word is
    either in quotes or without them. -/
def wordStep (env : Env) : WordState → Char → Option (List Token × WordState)
  | .blank, c =>
    if c = ' ' then some ([], .blank)
    else if c = '"' then some ([], .quoted [] .literal)
    else some ([], .bare [c])
  | .bare text, c =>
    if c = ' ' then (bareToken text).map fun token => ([token], .blank)
    else some ([], .bare (text ++ [c]))
  | .quoted value state, c =>
    match quoteStep env state c with
    | none => none
    | some (out, none) => some ([], .closed (value ++ out))
    | some (out, some next) => some ([], .quoted (value ++ out) next)
  | .closed value, c => if c = ' ' then some ([.word (String.ofList value)], .blank) else none

/-- The tokens of a command, from a state on. -/
def tokens (env : Env) : WordState → List Char → Option (List Token)
  | .blank, [] => some []
  | .bare text, [] => (bareToken text).map fun token => [token]
  | .quoted _ _, [] => none
  | .closed value, [] => some [.word (String.ofList value)]
  | state, c :: text =>
    match wordStep env state c with
    | none => none
    | some (out, next) => (tokens env next text).map fun rest => out ++ rest

theorem tokens_quoted {env : Env} {state : QuoteState} {text value after : List Char}
    (before : List Char) (h : expandQuoted env state text = some (value, after)) :
    tokens env (.quoted before state) text = tokens env (.closed (before ++ value)) after := by
  induction text generalizing state value before with
  | nil => simp [expandQuoted] at h
  | cons c text ih =>
    rw [expandQuoted] at h
    cases hstep : quoteStep env state c with
    | none => simp [hstep] at h
    | some r =>
      obtain ⟨out, next⟩ := r
      cases next with
      | none =>
        simp only [hstep, Option.some.injEq, Prod.mk.injEq] at h
        obtain ⟨rfl, rfl⟩ := h
        simp [tokens, wordStep, hstep]
      | some next =>
        simp only [hstep] at h
        obtain ⟨⟨rest, after'⟩, hrest, heq⟩ := Option.map_eq_some_iff.mp h
        simp only [Prod.mk.injEq] at heq
        obtain ⟨rfl, rfl⟩ := heq
        have hword := ih (before ++ out) hrest
        rw [List.append_assoc] at hword
        simp [tokens, wordStep, hstep, hword]

/-- A word in quotes. -/
theorem tokens_quote {env : Env} {text value after : List Char}
    (h : expandQuoted env .literal text = some (value, after)) :
    tokens env .blank ('"' :: text) = tokens env (.closed value) after := by
  have hword := tokens_quoted [] h
  rw [List.nil_append] at hword
  simp [tokens, wordStep, hword]

theorem tokens_closed (env : Env) (value text : List Char) :
    tokens env (.closed value) (' ' :: text) =
      (tokens env .blank text).map fun rest => .word (String.ofList value) :: rest := by
  simp [tokens, wordStep]

theorem tokens_bare_append (env : Env) (before s text : List Char) (hs : ' ' ∉ s) :
    tokens env (.bare before) (s ++ text) = tokens env (.bare (before ++ s)) text := by
  induction s generalizing before with
  | nil => simp
  | cons c s ih =>
    rw [List.mem_cons, not_or] at hs
    have hrest := ih (before ++ [c]) hs.2
    rw [List.append_assoc] at hrest
    simp [tokens, wordStep, Ne.symm hs.1, hrest]

/-- A token without quotes, and what follows it. -/
theorem tokens_bare {env : Env} {c : Char} {s text : List Char} {token : Token}
    (hs : ' ' ∉ c :: s) (hc : c ≠ '"') (htoken : bareToken (c :: s) = some token) :
    tokens env .blank (c :: s ++ ' ' :: text) =
      (tokens env .blank text).map fun rest => token :: rest := by
  rw [List.mem_cons, not_or] at hs
  have happend := tokens_bare_append env [c] s (' ' :: text) hs.2
  rw [List.singleton_append] at happend
  have hbegin : tokens env .blank (c :: (s ++ ' ' :: text)) =
      tokens env (.bare [c]) (s ++ ' ' :: text) := by
    simp [tokens, wordStep, Ne.symm hs.1, hc]
  rw [List.cons_append, hbegin, happend]
  simp [tokens, wordStep, htoken]

theorem bareToken_of_bare {text : List Char} (h : text.all isBareChar = true) :
    bareToken text = some (.word (String.ofList text)) := by
  have hbare := List.all_eq_true.mp h
  unfold bareToken
  split
  · exact absurd (hbare '>' List.mem_cons_self) (by decide)
  · exact absurd (hbare '<' List.mem_cons_self) (by decide)
  · exact if_pos h

/-- A word without quotes, and what follows it. -/
theorem tokens_word {env : Env} {s : List Char} (text : List Char) (hne : s ≠ [])
    (hs : s.all isBareChar = true) :
    tokens env .blank (s ++ ' ' :: text) =
      (tokens env .blank text).map fun rest => .word (String.ofList s) :: rest := by
  have hbare := List.all_eq_true.mp hs
  obtain ⟨c, s, rfl⟩ := List.exists_cons_of_ne_nil hne
  apply tokens_bare ?_ ?_ (bareToken_of_bare hs)
  · intro hblank
    exact absurd (hbare ' ' hblank) (by decide)
  · intro hquote
    exact absurd (hquote ▸ hbare c List.mem_cons_self) (by decide)

theorem tokens_redirect (env : Env) (text : List Char) :
    tokens env .blank ('>' :: ' ' :: text) =
      (tokens env .blank text).map fun rest => .redirect :: rest :=
  tokens_bare (s := []) (by decide) (by decide) rfl

/-- A path below a variable, in quotes. -/
theorem expandQuoted_below (env : Env) (c d : Char) (name s after : List Char)
    (hc : isNameStart c = true) (hname : name.all isNameChar = true) (hd : isNameChar d = false)
    (hs : (d :: s).all isLiteral = true) :
    expandQuoted env .literal ('$' :: c :: name ++ (d :: s ++ '"' :: after)) =
      some ((env.value (String.ofList (c :: name))).toList ++ d :: s, after) := by
  have hbelow := List.all_eq_true.mp hs
  have hcollect := expandQuoted_name env [c] name (d :: s ++ '"' :: after) (List.all_eq_true.mp hname)
  have hdollar : quoteStep env .literal '$' = some ([], some .dollar) := rfl
  have hstart : quoteStep env .dollar c = some ([], some (.variable [c])) := by
    rw [quoteStep, if_pos hc]
  have hclose : expandQuoted env .literal ('"' :: after) = some ([], after) := rfl
  have hliteral : expandQuoted env .literal (s ++ '"' :: after) = some (s, after) := by
    rw [expandQuoted_literal env s _ fun x hx => hbelow x (List.mem_cons_of_mem d hx), hclose]
    simp
  have hend : expandQuoted env (.variable (c :: name)) (d :: (s ++ '"' :: after)) =
      some ((env.value (String.ofList (c :: name))).toList ++ d :: s, after) := by
    have hstep := literalStep_of_isLiteral (hbelow d List.mem_cons_self)
    simp [expandQuoted, quoteStep, hd, hstep, hliteral]
  have hbegin (rest : List Char) : expandQuoted env .literal ('$' :: c :: rest) =
      expandQuoted env (.variable [c]) rest := by
    simp [expandQuoted, hdollar, hstart]
  rw [List.singleton_append] at hcollect
  rw [List.cons_append, List.cons_append, hbegin, hcollect, List.cons_append, hend]

/-! ### Commands -/

def unlines (lines : List (List Char)) : List Char := lines.flatMap fun line => line ++ ['\n']

theorem splitOn_unlines {lines : List (List Char)} (h : ∀ line ∈ lines, '\n' ∉ line) :
    (unlines lines).splitOn '\n' = lines ++ [[]] := by
  induction lines with
  | nil => rfl
  | cons line lines ih =>
    have hrest := ih fun l hl => h l (List.mem_cons_of_mem line hl)
    have htext : unlines (line :: lines) = line ++ '\n' :: unlines lines := by
      simp [unlines]
    rw [htext, List.splitOn_append_cons_self_of_not_mem (h line List.mem_cons_self), hrest]
    rfl

def joinLines (lines : List String) : String := String.join (lines.map fun line => line ++ "\n")

theorem joinLines_cons (line : String) (lines : List String) :
    joinLines (line :: lines) = line ++ "\n" ++ joinLines lines := by
  simp [joinLines]

theorem joinLines_append (l m : List String) : joinLines (l ++ m) = joinLines l ++ joinLines m := by
  simp [joinLines]

theorem toList_joinLines (lines : List String) :
    (joinLines lines).toList = unlines (lines.map String.toList) := by
  induction lines with
  | nil => rfl
  | cons line lines ih =>
    rw [joinLines_cons, String.toList_append, String.toList_append, ih]
    simp [unlines]

/-- A script, by its lines: the files when it runs another program in its place, and the words
    of that command. -/
def runCommands (env : Env) (files : Files) : List (List Char) → Option (Files × List Token)
  | [] => none
  | line :: lines =>
    match tokens env .blank line with
    | some [] => runCommands env files lines
    | some [.word "mkdir", .word "-p", .word path] =>
      match files.mkdirParents path with
      | none => none
      | some files => runCommands env files lines
    | some [.word "cat", .redirect, .word path, .here delimiter] =>
      match h : hereBody delimiter.toList lines with
      | none => none
      | some (body, rest) =>
        have := hereBody_length h
        match expandHere env .literal (unlines body) with
        | none => none
        | some contents =>
          match files.write path (String.ofList contents) with
          | none => none
          | some files => runCommands env files rest
    | some (.word "exec" :: command) => some (files, command)
    | _ => none
termination_by lines => lines.length
decreasing_by
  · simp
  · simp
  · simp only [List.length_cons]
    omega

theorem runCommands_mkdir {env : Env} {files files' : Files} {line : List Char}
    {lines : List (List Char)} {path : String}
    (hline : tokens env .blank line = some [.word "mkdir", .word "-p", .word path])
    (hmkdir : files.mkdirParents path = some files') :
    runCommands env files (line :: lines) = runCommands env files' lines := by
  rw [runCommands, hline]
  simp only [hmkdir]

theorem runCommands_cat {env : Env} {files files' : Files} {line contents : List Char}
    {body lines : List (List Char)} {path delimiter : String}
    (hline : tokens env .blank line =
      some [.word "cat", .redirect, .word path, .here delimiter])
    (hdelimiter : delimiter.toList ∉ body) (hbody : ∀ l ∈ body, '\\' ∉ l)
    (hcontents : expandHere env .literal (unlines body) = some contents)
    (hwrite : files.write path (String.ofList contents) = some files') :
    runCommands env files (line :: (body ++ delimiter.toList :: lines)) =
      runCommands env files' lines := by
  have hhere := hereBody_append delimiter.toList body lines hdelimiter hbody
  rw [runCommands, hline]
  simp only []
  split
  · rename_i hnone
    simp [hhere] at hnone
  · rename_i body' rest hsome
    rw [hhere] at hsome
    simp only [Option.some.injEq, Prod.mk.injEq] at hsome
    obtain ⟨rfl, rfl⟩ := hsome
    simp only [hcontents, hwrite]

theorem runCommands_exec {env : Env} {files : Files} {line : List Char} {lines : List (List Char)}
    {command : List Token} (hline : tokens env .blank line = some (.word "exec" :: command)) :
    runCommands env files (line :: lines) = some (files, command) := by
  rw [runCommands, hline]
  simp

/-- What the text of a script does. -/
def runText (env : Env) (files : Files) (text : String) : Option (Files × List Token) :=
  runCommands env files (text.toList.splitOn '\n')

end ShellText

import DevenvTemplate.JoinedText
import Mathlib.Data.List.TakeWhile

/-!
# TOML text

Configuration files in TOML, as far as a service needs them: tables and arrays of tables,
keys with dots, and strings, integers and fractions.  A file is read line by line and
refused if it defines something twice.  What is refused need not be wrong in TOML, but
what is read means the same there.  `readToml_render` is the round trip.
-/

namespace TomlText

/-! ### Lines -/

/-- A character of a key without quotes. -/
def isBare (c : Char) : Bool := c.isAlphanum || c == '-' || c == '_'

/-- No control character but the tab. -/
def isPrintable (c : Char) : Bool := c == '\t' || (' ' ≤ c && c != '\x7f')

/-- A character that a string has as it is. -/
def isBasic (c : Char) : Bool := isPrintable c && c != '"' && c != '\\'

structure BareKey where
  text : String
  ne_empty : text ≠ ""
  bare : text.toList.all isBare = true
deriving DecidableEq

/-- A key with dots. -/
structure Key where
  first : BareKey
  rest : List BareKey := []
deriving DecidableEq

structure BasicString where
  text : String
  basic : text.toList.all isBasic = true
deriving DecidableEq

/-- Integers have 64 bits. -/
abbrev Integer := { n : Int // -0x8000000000000000 ≤ n ∧ n < 0x8000000000000000 }

/-- The digits after the point. -/
structure Digits where
  text : String
  ne_empty : text ≠ ""
  digits : text.toList.all Char.isDigit = true
deriving DecidableEq

inductive Value where
  | string (s : BasicString)
  | integer (n : Integer)
  | fraction (whole : Nat) (digits : Digits)
deriving DecidableEq

inductive Line where
  | blank
  | table (name : BareKey)
  | element (name : BareKey)                      -- of an array of tables
  | pair (key : Key) (value : Value)
deriving DecidableEq

def Key.path (key : Key) : List BareKey := key.first :: key.rest

def Key.render (key : Key) : String := ".".intercalate (key.path.map BareKey.text)

def Value.render : Value → String
  | .string s => "\"" ++ s.text ++ "\""
  | .integer n => n.val.repr
  | .fraction whole digits => whole.repr ++ "." ++ digits.text

def Line.render : Line → String
  | .blank => ""
  | .table name => "[" ++ name.text ++ "]"
  | .element name => "[[" ++ name.text ++ "]]"
  | .pair key value => key.render ++ " = " ++ value.render

/-! ### Reading a line -/

def isBlank (c : Char) : Bool := c == ' ' || c == '\t'

def skipBlanks (text : List Char) : List Char := text.dropWhile isBlank

def trim (text : List Char) : List Char := (skipBlanks (skipBlanks text).reverse).reverse

/-- Only blanks and a comment follow. -/
def atEnd (text : List Char) : Bool :=
  match skipBlanks text with
  | [] => true
  | c :: comment => c == '#' && comment.all isPrintable

theorem ofList_ne_empty {text : List Char} (h : text ≠ []) : String.ofList text ≠ "" := by
  intro heq
  apply h
  simpa using congrArg String.toList heq

def readBare (text : List Char) : Option BareKey :=
  if h : text ≠ [] ∧ text.all isBare = true then
    some ⟨String.ofList text, ofList_ne_empty h.1, by rw [String.toList_ofList]; exact h.2⟩
  else none

def readKey (text : List Char) : Option Key :=
  match ((trim text).splitOn '.').mapM fun part => readBare (trim part) with
  | some (first :: rest) => some ⟨first, rest⟩
  | _ => none

def readNat (text : List Char) : Option Nat :=
  if text.all Char.isDigit = true ∧ text ≠ [] ∧ (text = ['0'] ∨ text.head? ≠ some '0') then
    some (Nat.ofDigitChars 10 text 0)
  else none

def readInt : List Char → Option Int
  | '-' :: text => (readNat text).map fun n => -(n : Int)
  | '+' :: text => (readNat text).map fun n => (n : Int)
  | text => (readNat text).map fun n => (n : Int)

def readDigits (text : List Char) : Option Digits :=
  if h : text ≠ [] ∧ text.all Char.isDigit = true then
    some ⟨String.ofList text, ofList_ne_empty h.1, by rw [String.toList_ofList]; exact h.2⟩
  else none

def readNumber (text : List Char) : Option Value :=
  match text.splitOn '.' with
  | [whole] => do
    let n ← readInt whole
    if h : -0x8000000000000000 ≤ n ∧ n < 0x8000000000000000 then some (.integer ⟨n, h⟩) else none
  | [whole, digits] => do
    let whole ← readNat whole
    let digits ← readDigits digits
    return .fraction whole digits
  | _ => none

def isNumberChar (c : Char) : Bool := c.isDigit || c == '-' || c == '+' || c == '.'

/-- A value and the text after it. -/
def readValue : List Char → Option (Value × List Char)
  | '"' :: text =>
    match text.dropWhile isBasic with
    | '"' :: after =>
      some (.string ⟨String.ofList (text.takeWhile isBasic), by simp⟩, after)
    | _ => none
  | text => (readNumber (text.takeWhile isNumberChar)).map fun v => (v, text.dropWhile isNumberChar)

def readHeader : List Char → Option Line
  | '[' :: text =>
    match text.dropWhile (· != ']') with
    | ']' :: ']' :: after =>
      if atEnd after then (readBare (trim (text.takeWhile (· != ']')))).map Line.element else none
    | _ => none
  | text =>
    match text.dropWhile (· != ']') with
    | ']' :: after =>
      if atEnd after then (readBare (trim (text.takeWhile (· != ']')))).map Line.table else none
    | _ => none

def readPair (text : List Char) : Option Line := do
  let key ← readKey (text.takeWhile (· != '='))
  match text.dropWhile (· != '=') with
  | '=' :: after =>
    let (value, after) ← readValue (skipBlanks after)
    if atEnd after then some (.pair key value) else none
  | _ => none

def readLine (line : List Char) : Option Line :=
  if atEnd line then some .blank
  else
    match skipBlanks line with
    | '[' :: text => readHeader text
    | text => readPair text

example : readLine "server.listen = \":8080\"  # the proxy".toList =
    some (.pair ⟨⟨"server", by decide, by decide⟩, [⟨"listen", by decide, by decide⟩]⟩
      (.string ⟨":8080", by decide⟩)) := by decide

/-! ### Reading a file -/

inductive Header where
  | top
  | table (name : BareKey)
  | element (name : BareKey)
deriving DecidableEq

/-- A header with the pairs up to the next one. -/
structure Section where
  header : Header
  pairs : List (Key × Value)
deriving DecidableEq

def sections : Section → List Line → List Section
  | current, [] => [current]
  | current, .blank :: lines => sections current lines
  | current, .table name :: lines => current :: sections ⟨.table name, []⟩ lines
  | current, .element name :: lines => current :: sections ⟨.element name, []⟩ lines
  | current, .pair key value :: lines =>
    sections { current with pairs := current.pairs ++ [(key, value)] } lines

def Header.tableName : Header → Option BareKey
  | .table name => some name
  | _ => none

def Header.elementName : Header → Option BareKey
  | .element name => some name
  | _ => none

def tableNames (doc : List Section) : List BareKey := doc.filterMap fun s => s.header.tableName

def elementNames (doc : List Section) : List BareKey := doc.filterMap fun s => s.header.elementName

/-- The names that pairs without a header define. -/
def topNames (doc : List Section) : List BareKey :=
  (doc.filter fun s => s.header = .top).flatMap fun s => s.pairs.map fun p => p.1.first

/-- Neither key is the other one or a table around it. -/
def Key.Apart (k l : Key) : Prop := ¬ k.path <+: l.path ∧ ¬ l.path <+: k.path

instance (k l : Key) : Decidable (k.Apart l) := inferInstanceAs (Decidable (_ ∧ _))

/-- Nothing is defined twice. -/
def Consistent (doc : List Section) : Prop :=
  (tableNames doc).Nodup ∧ (∀ name ∈ tableNames doc, name ∉ elementNames doc) ∧
    (∀ name ∈ topNames doc, name ∉ tableNames doc ∧ name ∉ elementNames doc) ∧
    ∀ s ∈ doc, (s.pairs.map Prod.fst).Pairwise Key.Apart

instance (doc : List Section) : Decidable (Consistent doc) :=
  inferInstanceAs (Decidable (_ ∧ _ ∧ _ ∧ _))

def readToml (text : String) : Option (List Section) := do
  let lines ← (text.toList.splitOn '\n').mapM readLine
  let doc := sections ⟨.top, []⟩ lines
  if Consistent doc then some doc else none

def render (lines : List Line) : String := String.join (lines.map fun l => l.render ++ "\n")

/-! ### Looking up -/

def Section.value (s : Section) (path : List String) : Option Value :=
  (s.pairs.find? fun p => p.1.path.map BareKey.text = path).map Prod.snd

/-- The elements of an array of tables. -/
def elements (doc : List Section) (name : String) : List Section :=
  doc.filter fun s => s.header.elementName.map BareKey.text = some name

/-! ### Characters -/

theorem not_blank_of_isBare {c : Char} (h : isBare c = true) :
    isBlank c = false ∧ c ≠ '.' ∧ c ≠ '=' ∧ c ≠ ']' ∧ c ≠ '[' ∧ c ≠ '#' ∧ c ≠ '\n' := by
  refine ⟨?_, ?_, ?_, ?_, ?_, ?_, ?_⟩
  · by_contra hblank
    simp only [isBlank, Bool.not_eq_false, Bool.or_eq_true, beq_iff_eq] at hblank
    rcases hblank with rfl | rfl
    · exact absurd h (by decide)
    · exact absurd h (by decide)
  all_goals
    intro heq
    subst heq
    exact absurd h (by decide)

theorem skipBlanks_cons {c : Char} {text : List Char} (h : isBlank c = false) :
    skipBlanks (c :: text) = c :: text := by
  rw [skipBlanks, List.dropWhile_cons_of_neg (by simp [h])]

theorem skipBlanks_of_no_blank {text : List Char} (h : ∀ c ∈ text, isBlank c = false) :
    skipBlanks text = text := by
  cases text with
  | nil => rfl
  | cons c text => exact skipBlanks_cons (h c List.mem_cons_self)

theorem trim_of_no_blank {text : List Char} (h : ∀ c ∈ text, isBlank c = false) :
    trim text = text := by
  have hreverse : ∀ c ∈ text.reverse, isBlank c = false :=
    fun c hc => h c (List.mem_reverse.mp hc)
  rw [trim, skipBlanks_of_no_blank h, skipBlanks_of_no_blank hreverse, List.reverse_reverse]

/-- The blank before a sign is no part of the key. -/
theorem trim_append_blank {text : List Char} (h : ∀ c ∈ text, isBlank c = false) (hne : text ≠ []) :
    trim (text ++ [' ']) = text := by
  have hreverse : ∀ c ∈ text.reverse, isBlank c = false :=
    fun c hc => h c (List.mem_reverse.mp hc)
  have hskip : skipBlanks (text ++ [' ']) = text ++ [' '] := by
    cases text with
    | nil => exact absurd rfl hne
    | cons c text => exact skipBlanks_cons (h c List.mem_cons_self)
  rw [trim, hskip, List.reverse_append, List.reverse_singleton, List.singleton_append]
  have hblank : skipBlanks (' ' :: text.reverse) = skipBlanks text.reverse := rfl
  rw [hblank, skipBlanks_of_no_blank hreverse, List.reverse_reverse]

/-! ### Keys -/

theorem BareKey.char (key : BareKey) {c : Char} (hc : c ∈ key.text.toList) : isBare c = true :=
  List.all_eq_true.mp key.bare c hc

theorem BareKey.toList_ne_nil (key : BareKey) : key.text.toList ≠ [] := by
  intro h
  exact key.ne_empty (String.toList_eq_nil_iff.mp h)

theorem BareKey.no_blank (key : BareKey) : ∀ c ∈ key.text.toList, isBlank c = false :=
  fun _ hc => (not_blank_of_isBare (key.char hc)).1

theorem readBare_text (key : BareKey) : readBare key.text.toList = some key := by
  rw [readBare, dif_pos ⟨key.toList_ne_nil, key.bare⟩]
  simp only [String.ofList_toList]

theorem mapM_render {α β : Type} {read : α → Option β} {write : β → α} (l : List β)
    (h : ∀ b ∈ l, read (write b) = some b) : (l.map write).mapM read = some l := by
  induction l with
  | nil => rfl
  | cons b l ih =>
    have hrest := ih fun b' hb' => h b' (List.mem_cons_of_mem b hb')
    rw [List.map_cons, List.mapM_cons, h b List.mem_cons_self, hrest]
    rfl

theorem Key.no_blank (key : Key) : ∀ c ∈ key.render.toList, isBlank c = false ∧ c ≠ '=' := by
  apply JoinedText.forall_mem_intercalate
  · intro c hc
    rw [List.mem_singleton.mp hc]
    decide
  · intro s hs c hc
    obtain ⟨part, _, rfl⟩ := List.mem_map.mp hs
    have hchar := not_blank_of_isBare (part.char hc)
    exact ⟨hchar.1, hchar.2.2.1⟩

/-- A key begins with a character that nothing else begins with. -/
theorem Key.head (key : Key) : ∃ c text, key.render.toList = c :: text ∧ isBare c = true := by
  obtain ⟨c, text, htext⟩ := List.exists_cons_of_ne_nil key.first.toList_ne_nil
  have hc : isBare c = true := key.first.char (by rw [htext]; exact List.mem_cons_self)
  by_cases hrest : key.rest = []
  · refine ⟨c, text, ?_, hc⟩
    rw [Key.render, Key.path, hrest, List.map_singleton, String.intercalate_singleton, htext]
  · refine ⟨c, text ++ (".".toList ++ (".".intercalate (key.rest.map BareKey.text)).toList), ?_, hc⟩
    have hne : key.rest.map BareKey.text ≠ [] := by simpa using hrest
    rw [Key.render, Key.path, List.map_cons, JoinedText.toList_intercalate_cons "." _ hne, htext,
      List.cons_append]

theorem splitOn_render (key : Key) :
    key.render.toList.splitOn '.' = key.path.map fun part => part.text.toList := by
  have hparts : ∀ l ∈ (key.path.map BareKey.text).map String.toList, '.' ∉ l := by
    intro l hl hdot
    rw [List.map_map] at hl
    obtain ⟨part, _, rfl⟩ := List.mem_map.mp hl
    exact (not_blank_of_isBare (part.char hdot)).2.1 rfl
  have hsplit := List.splitOn_intercalate '.' hparts (by simp [Key.path])
  have hsep : ".".toList = ['.'] := rfl
  rw [Key.render, String.toList_intercalate, hsep, hsplit, List.map_map]
  rfl

theorem readKey_render (key : Key) : readKey (key.render.toList ++ [' ']) = some key := by
  have hne : key.render.toList ≠ [] := by
    obtain ⟨c, text, htext, _⟩ := key.head
    simp [htext]
  have hparts : (key.path.map fun part => part.text.toList).mapM
      (fun part => readBare (trim part)) = some key.path := by
    apply mapM_render
    intro part _
    rw [trim_of_no_blank part.no_blank, readBare_text]
  rw [readKey, trim_append_blank (fun c hc => (key.no_blank c hc).1) hne, splitOn_render, hparts]
  rfl

/-! ### Values -/

theorem head_toDigits {n : Nat} (hn : 0 < n) : (Nat.toDigits 10 n).head? ≠ some '0' := by
  induction n using Nat.strongRecOn with
  | ind n ih =>
    by_cases hlt : n < 10
    · rw [Nat.toDigits_of_lt_base hlt]
      simpa using hn.ne'
    · rw [Nat.toDigits_of_base_le (by decide) (Nat.not_lt.mp hlt),
        List.head?_append_of_ne_nil _ Nat.toDigits_ne_nil]
      exact ih (n / 10) (by omega) (by omega)

theorem all_isDigit_repr (n : Nat) : n.repr.toList.all Char.isDigit = true := by
  rw [Nat.toList_repr, List.all_eq_true]
  exact fun c hc => Nat.isDigit_of_mem_toDigits (by decide) (by decide) hc

theorem readNat_repr (n : Nat) : readNat n.repr.toList = some n := by
  have hhead : n.repr.toList = ['0'] ∨ n.repr.toList.head? ≠ some '0' := by
    rw [Nat.toList_repr]
    rcases Nat.eq_zero_or_pos n with rfl | hpos
    · exact Or.inl (Nat.toDigits_zero 10)
    · exact Or.inr (head_toDigits hpos)
  have hne : n.repr.toList ≠ [] := by
    rw [Nat.toList_repr]
    exact Nat.toDigits_ne_nil
  rw [readNat, if_pos ⟨all_isDigit_repr n, hne, hhead⟩, Nat.toList_repr,
    Nat.ofDigitChars_ten_toDigits]

theorem readInt_of_digits {text : List Char} (h : text.all Char.isDigit = true) :
    readInt text = (readNat text).map fun n => (n : Int) := by
  unfold readInt
  split
  · simp at h
  · simp at h
  · rfl

theorem readInt_repr (n : Int) : readInt n.repr.toList = some n := by
  rw [Int.repr_eq_if]
  by_cases hn : 0 ≤ n
  · rw [if_pos hn, readInt_of_digits (all_isDigit_repr _), readNat_repr]
    simp [hn]
  · rw [if_neg hn, String.toList_append]
    have hminus : "-".toList = ['-'] := rfl
    rw [hminus, List.singleton_append, readInt, readNat_repr]
    simp
    omega

theorem no_point_of_digits {text : List Char} (h : text.all Char.isDigit = true) : '.' ∉ text := by
  intro hmem
  exact absurd (List.all_eq_true.mp h '.' hmem) (by decide)

theorem int_repr_cases (n : Int) :
    (∃ m : Nat, n.repr.toList = m.repr.toList) ∨ ∃ m : Nat, n.repr.toList = '-' :: m.repr.toList := by
  rw [Int.repr_eq_if]
  by_cases hn : 0 ≤ n
  · exact Or.inl ⟨n.toNat, by rw [if_pos hn]⟩
  · refine Or.inr ⟨(-n).toNat, ?_⟩
    rw [if_neg hn, String.toList_append]
    rfl

theorem readDigits_text (digits : Digits) : readDigits digits.text.toList = some digits := by
  have hne : digits.text.toList ≠ [] := by
    intro h
    exact digits.ne_empty (String.toList_eq_nil_iff.mp h)
  rw [readDigits, dif_pos ⟨hne, digits.digits⟩]
  simp only [String.ofList_toList]

theorem numberChar_of_isDigit {c : Char} (h : c.isDigit = true) : isNumberChar c = true := by
  rw [isNumberChar, h]
  rfl

theorem readNumber_integer (n : Integer) : readNumber n.val.repr.toList = some (.integer n) := by
  have hpoint : '.' ∉ n.val.repr.toList := by
    rcases int_repr_cases n.val with ⟨m, hm⟩ | ⟨m, hm⟩
    · rw [hm]
      exact no_point_of_digits (all_isDigit_repr m)
    · rw [hm]
      have := no_point_of_digits (all_isDigit_repr m)
      simpa using this
  rw [readNumber, List.splitOn_eq_singleton hpoint]
  simp only [readInt_repr, Option.bind_eq_bind, Option.bind_some]
  rw [dif_pos n.property]

theorem readNumber_fraction (whole : Nat) (digits : Digits) :
    readNumber (whole.repr.toList ++ '.' :: digits.text.toList) =
      some (.fraction whole digits) := by
  have hwhole := no_point_of_digits (all_isDigit_repr whole)
  have hdigits := no_point_of_digits digits.digits
  rw [readNumber, List.splitOn_append_cons_self_of_not_mem hwhole,
    List.splitOn_eq_singleton hdigits]
  simp only [readNat_repr, readDigits_text, Option.bind_eq_bind, Option.bind_some]
  rfl

/-- A number with nothing after it. -/
theorem readValue_of_number {text : List Char} {value : Value}
    (hchars : ∀ c ∈ text, isNumberChar c = true) (h : readNumber text = some value) :
    readValue text = some (value, []) := by
  have htake : text.takeWhile isNumberChar = text := List.takeWhile_eq_self_iff.mpr hchars
  have hdrop : text.dropWhile isNumberChar = [] := List.dropWhile_eq_nil_iff.mpr hchars
  unfold readValue
  split
  · exact absurd (hchars '"' List.mem_cons_self) (by decide)
  · rw [htake, hdrop, h]
    rfl

theorem integer_chars (n : Integer) : ∀ c ∈ n.val.repr.toList, isNumberChar c = true := by
  have hdigit : ∀ (m : Nat) (c : Char), c ∈ m.repr.toList → isNumberChar c = true :=
    fun m c hm => numberChar_of_isDigit (List.all_eq_true.mp (all_isDigit_repr m) c hm)
  intro c hc
  rcases int_repr_cases n.val with ⟨m, hm⟩ | ⟨m, hm⟩
  · exact hdigit m c (hm ▸ hc)
  · have hc : c ∈ '-' :: m.repr.toList := hm ▸ hc
    rcases List.mem_cons.mp hc with rfl | hc
    · decide
    · exact hdigit m c hc

theorem fraction_chars (whole : Nat) (digits : Digits) :
    ∀ c ∈ whole.repr.toList ++ '.' :: digits.text.toList, isNumberChar c = true := by
  intro c hc
  rcases List.mem_append.mp hc with hc | hc
  · exact numberChar_of_isDigit (List.all_eq_true.mp (all_isDigit_repr whole) c hc)
  · rcases List.mem_cons.mp hc with rfl | hc
    · decide
    · exact numberChar_of_isDigit (List.all_eq_true.mp digits.digits c hc)

theorem string_render (s : BasicString) :
    (Value.string s).render.toList = '"' :: (s.text.toList ++ ['"']) := by
  simp [Value.render, String.toList_append]

theorem fraction_render (whole : Nat) (digits : Digits) :
    (Value.fraction whole digits).render.toList = whole.repr.toList ++ '.' :: digits.text.toList := by
  simp [Value.render, String.toList_append]

theorem readValue_render (value : Value) : readValue value.render.toList = some (value, []) := by
  cases value with
  | string s =>
    have hbasic := List.all_eq_true.mp s.basic
    have htake : (s.text.toList ++ ['"']).takeWhile isBasic = s.text.toList := by
      rw [List.takeWhile_append_of_pos hbasic]
      simp [isBasic]
    have hdrop : (s.text.toList ++ ['"']).dropWhile isBasic = ['"'] := by
      rw [List.dropWhile_append_of_pos hbasic]
      simp [isBasic]
    rw [string_render, readValue]
    simp only [hdrop, htake, String.ofList_toList]
  | integer n => exact readValue_of_number (integer_chars n) (readNumber_integer n)
  | fraction whole digits =>
    rw [fraction_render]
    exact readValue_of_number (fraction_chars whole digits) (readNumber_fraction whole digits)

theorem numberChar_plain {c : Char} (h : isNumberChar c = true) : isBlank c = false ∧ c ≠ '\n' := by
  constructor
  · by_contra hblank
    simp only [isBlank, Bool.not_eq_false, Bool.or_eq_true, beq_iff_eq] at hblank
    rcases hblank with rfl | rfl
    · exact absurd h (by decide)
    · exact absurd h (by decide)
  · intro heq
    subst heq
    exact absurd h (by decide)

/-- A value does not begin with a blank. -/
theorem skipBlanks_value (value : Value) :
    skipBlanks (' ' :: value.render.toList) = value.render.toList := by
  have hskip : skipBlanks (' ' :: value.render.toList) = skipBlanks value.render.toList := rfl
  rw [hskip]
  cases value with
  | string s =>
    rw [string_render]
    rfl
  | integer n =>
    exact skipBlanks_of_no_blank fun c hc => (numberChar_plain (integer_chars n c hc)).1
  | fraction whole digits =>
    rw [fraction_render]
    exact skipBlanks_of_no_blank fun c hc => (numberChar_plain (fraction_chars whole digits c hc)).1

theorem no_newline_value (value : Value) : '\n' ∉ value.render.toList := by
  cases value with
  | string s =>
    have hbasic := List.all_eq_true.mp s.basic '\n'
    rw [string_render]
    simp only [List.mem_cons, List.mem_append]
    rintro (h | h | h | h)
    · simp at h
    · exact absurd (hbasic h) (by decide)
    · simp at h
    · simp at h
  | integer n => exact fun h => (numberChar_plain (integer_chars n _ h)).2 rfl
  | fraction whole digits =>
    rw [fraction_render]
    exact fun h => (numberChar_plain (fraction_chars whole digits _ h)).2 rfl

/-! ### Lines -/

theorem takeWhile_name (name : BareKey) (after : List Char) :
    (name.text.toList ++ ']' :: after).takeWhile (· != ']') = name.text.toList ∧
      (name.text.toList ++ ']' :: after).dropWhile (· != ']') = ']' :: after := by
  have hname : ∀ c ∈ name.text.toList, (c != ']') = true := by
    intro c hc
    have hne := (not_blank_of_isBare (name.char hc)).2.2.2.1
    simpa using hne
  rw [List.takeWhile_append_of_pos hname, List.dropWhile_append_of_pos hname]
  simp

theorem readHeader_element (name : BareKey) :
    readHeader ('[' :: (name.text.toList ++ "]]".toList)) = some (.element name) := by
  have hbrackets : "]]".toList = ']' :: [']'] := rfl
  obtain ⟨htake, hdrop⟩ := takeWhile_name name [']']
  rw [hbrackets, readHeader]
  simp only [hdrop, htake, trim_of_no_blank name.no_blank, readBare_text]
  rfl

theorem readHeader_table (name : BareKey) :
    readHeader (name.text.toList ++ [']']) = some (.table name) := by
  obtain ⟨htake, hdrop⟩ := takeWhile_name name []
  unfold readHeader
  split
  · rename_i text heq
    -- a name does not begin with a bracket
    obtain ⟨c, cs, hname⟩ := List.exists_cons_of_ne_nil name.toList_ne_nil
    have hc : isBare c = true := name.char (by rw [hname]; exact List.mem_cons_self)
    rw [hname] at heq
    exact absurd (List.cons.inj heq).1 (not_blank_of_isBare hc).2.2.2.2.1
  · simp only [hdrop, htake, trim_of_no_blank name.no_blank, readBare_text]
    rfl

theorem readPair_render (key : Key) (value : Value) :
    readPair (Line.pair key value).render.toList = some (.pair key value) := by
  have htext : (Line.pair key value).render.toList =
      (key.render.toList ++ [' ']) ++ '=' :: ' ' :: value.render.toList := by
    simp [Line.render, String.toList_append]
  have hkey : ∀ c ∈ key.render.toList ++ [' '], (c != '=') = true := by
    intro c hc
    rcases List.mem_append.mp hc with hc | hc
    · have hne := (key.no_blank c hc).2
      simpa using hne
    · rw [List.mem_singleton.mp hc]
      decide
  have htake : ((key.render.toList ++ [' ']) ++ '=' :: ' ' :: value.render.toList).takeWhile
      (· != '=') = key.render.toList ++ [' '] := by
    rw [List.takeWhile_append_of_pos hkey]
    simp
  have hdrop : ((key.render.toList ++ [' ']) ++ '=' :: ' ' :: value.render.toList).dropWhile
      (· != '=') = '=' :: ' ' :: value.render.toList := by
    rw [List.dropWhile_append_of_pos hkey]
    simp
  rw [readPair, htext, htake, hdrop, readKey_render]
  simp only [Option.bind_eq_bind, Option.bind_some, skipBlanks_value, readValue_render]
  rfl

theorem readLine_of_bare {c : Char} {text : List Char} (hc : isBare c = true) :
    readLine (c :: text) = readPair (c :: text) := by
  obtain ⟨hblank, _, _, _, hbracket, hcomment, _⟩ := not_blank_of_isBare hc
  have hend : ¬ atEnd (c :: text) = true := by
    rw [atEnd, skipBlanks_cons hblank]
    simp [hcomment]
  rw [readLine, if_neg hend, skipBlanks_cons hblank]
  split
  · rename_i heq
    exact absurd (List.cons.inj heq).1 hbracket
  · rfl

theorem readLine_render (line : Line) : readLine line.render.toList = some line := by
  cases line with
  | blank => decide
  | table name =>
    have htext : (Line.table name).render.toList = '[' :: (name.text.toList ++ [']']) := by
      simp [Line.render, String.toList_append]
    rw [htext]
    exact readHeader_table name
  | element name =>
    have htext : (Line.element name).render.toList =
        '[' :: '[' :: (name.text.toList ++ "]]".toList) := by
      simp [Line.render, String.toList_append]
    rw [htext]
    exact readHeader_element name
  | pair key value =>
    obtain ⟨c, text, htext, hc⟩ := key.head
    have hrender : (Line.pair key value).render.toList =
        c :: (text ++ (" = ".toList ++ value.render.toList)) := by
      rw [Line.render, String.toList_append, String.toList_append, htext]
      simp
    rw [hrender, readLine_of_bare hc, ← hrender]
    exact readPair_render key value

theorem no_newline_render (line : Line) : '\n' ∉ line.render.toList := by
  have hbare : ∀ name : BareKey, '\n' ∉ name.text.toList :=
    fun name h => (not_blank_of_isBare (name.char h)).2.2.2.2.2.2 rfl
  cases line with
  | blank => simp [Line.render]
  | table name => simp [Line.render, String.toList_append, hbare name]
  | element name => simp [Line.render, String.toList_append, hbare name]
  | pair key value =>
    have hkey : '\n' ∉ key.render.toList := by
      apply fun h => JoinedText.forall_mem_intercalate (P := (· ≠ '\n')) ?_ ?_ '\n' h rfl
      · intro c hc
        rw [List.mem_singleton.mp hc]
        decide
      · intro s hs c hc heq
        obtain ⟨part, _, rfl⟩ := List.mem_map.mp hs
        exact hbare part (heq ▸ hc)
    simp [Line.render, String.toList_append, hkey, no_newline_value value]

/-! ### The round trip -/

theorem toList_render_cons (line : Line) (lines : List Line) :
    (render (line :: lines)).toList = line.render.toList ++ '\n' :: (render lines).toList := by
  simp [render, String.toList_append]

theorem readLines_render (lines : List Line) :
    ((render lines).toList.splitOn '\n').mapM readLine = some (lines ++ [.blank]) := by
  induction lines with
  | nil => decide
  | cons line lines ih =>
    rw [toList_render_cons, List.splitOn_append_cons_self_of_not_mem (no_newline_render line),
      List.mapM_cons, readLine_render, ih]
    rfl

theorem sections_append_blank (current : Section) (lines : List Line) :
    sections current (lines ++ [.blank]) = sections current lines := by
  induction lines generalizing current with
  | nil => rfl
  | cons line lines ih =>
    cases line with
    | _ => simp only [List.cons_append, sections, ih]

/-- **A file is read back as it was written**, unless it defines something twice. -/
theorem readToml_render (lines : List Line) (h : Consistent (sections ⟨.top, []⟩ lines)) :
    readToml (render lines) = some (sections ⟨.top, []⟩ lines) := by
  rw [readToml, readLines_render]
  simp only [Option.bind_eq_bind, Option.bind_some, sections_append_blank]
  exact if_pos h

end TomlText

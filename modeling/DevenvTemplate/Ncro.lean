import DevenvTemplate.Caches
import DevenvTemplate.ShellCommands
import DevenvTemplate.TomlText

/-!
# The cache proxy

`dev/ncro.nix` declares the upstream caches and renders them into a script, which writes
the configuration of ncro below `DEVENV_STATE` and runs ncro.  The script is read here as
a shell reads it, and the file that it leaves as TOML: `process_config` is what ncro finds
there, and `process_agrees` that it is what `base.nix` tells Nix.
-/

namespace DevenvTemplate.Ncro

open Nix ShellText TomlText

/-! ### The options -/

/-- Text that neither a here-document nor a string in TOML reads as anything else. -/
def isQuotable (c : Char) : Bool := isBodyLiteral c && isBasic c

/-- `upstreamSubmodule` -/
structure Upstream extends Caches.Upstream where
  priority : Integer
  url_quotable : url.text.toList.all isQuotable = true
  key_quotable : publicKey.text.toList.all isQuotable = true

def word (text : String) (h : text ≠ "" ∧ text.toList.all SettingsText.isWordChar = true) :
    SettingsText.Word :=
  ⟨text, h.1, h.2⟩

def defaultUpstreams : List Upstream :=
  [{ url := word "https://cache.nixos.org" (by decide +kernel),
      publicKey := word "cache.nixos.org-1:6NCHdD59X431o0gWypbMrAURkbJ16ZPMQFGspcDShjY=" (by decide +kernel),
      priority := ⟨10, by decide +kernel⟩,
      url_quotable := by decide +kernel,
      key_quotable := by decide +kernel },
    { url := word "https://nix-community.cachix.org" (by decide +kernel),
      publicKey := word "nix-community.cachix.org-1:mB9FSh9qf2dCimDSUo8Zy7bkq5CX+/rkCWyvRCYg3Fs=" (by decide +kernel),
      priority := ⟨15, by decide +kernel⟩,
      url_quotable := by decide +kernel,
      key_quotable := by decide +kernel },
    { url := word "https://cache.numtide.com" (by decide +kernel),
      publicKey := word "niks3.numtide.com-1:DTx8wZduET09hRmMtKdQDxNNthLQETkc/yaX7M4qK0g=" (by decide +kernel),
      priority := ⟨18, by decide +kernel⟩,
      url_quotable := by decide +kernel,
      key_quotable := by decide +kernel },
    { url := word "https://cache.flox.dev" (by decide +kernel),
      publicKey := word "flox-cache-public-1:7F4OyH7ZCnFhcze3fJdfyXYLQw/aV7GEed86nQ7IsOs=" (by decide +kernel),
      priority := ⟨20, by decide +kernel⟩,
      url_quotable := by decide +kernel,
      key_quotable := by decide +kernel },
    { url := word "https://nixpkgs-unfree.cachix.org" (by decide +kernel),
      publicKey := word "nixpkgs-unfree.cachix.org-1:hqvoInulhbV4nJ9yJOEr+4wxhDV4xq2d1DK7S6Nj6rs=" (by decide +kernel),
      priority := ⟨25, by decide +kernel⟩,
      url_quotable := by decide +kernel,
      key_quotable := by decide +kernel }]

/-- `templateConfig.ncro` -/
structure Config where
  enable : Bool := true
  upstreams : List Upstream := defaultUpstreams

/-- What `base.nix` uses of the options. -/
def Config.caches (cfg : Config) : Caches.NcroConfig :=
  ⟨cfg.enable, cfg.upstreams.map Upstream.toUpstream⟩

/-- `base.nix` and `ncro.nix` mean the same upstreams. -/
example : Config.caches {} = {} := rfl

/-- The package, by the store path of its output. -/
structure Package where
  outPath : String
  bare : outPath.toList.all isBareChar = true

/-! ### The script -/

def upstreamTable (c : Upstream) : String :=
  "[[upstreams]]\n" ++ "url = \"" ++ c.url.text ++ "\"\n" ++
    "priority = " ++ c.priority.val.repr ++ "\n" ++
    "public_key = \"" ++ c.publicKey.text ++ "\"\n"

/-- `processes.ncro.exec` -/
def exec (ncro : Package) (upstreams : List Upstream) : String :=
  ("mkdir -p \"$DEVENV_STATE/ncro\"\n" ++
    "cat > \"$DEVENV_STATE/ncro/config.toml\" <<EOF\n" ++
    "server.listen = \":8080\"\n\n") ++
  concatStringsSep "\n" (upstreams.map upstreamTable) ++
  ("\n\n" ++
    "[cache]\n" ++
    "db_path = \"$DEVENV_STATE/ncro/routes.db\"\n" ++
    "max_entries = 100000\n" ++
    "ttl = \"1h\"\n" ++
    "latency_alpha = 0.3\n\n" ++
    "[logging]\n" ++
    "level = \"info\"\n" ++
    "format = \"json\"\n" ++
    "EOF\n") ++
  ("exec " ++ ncro.outPath ++ "/bin/ncro --config \"$DEVENV_STATE/ncro/config.toml\"\n")

/-- `config.processes.ncro.exec`, where the module is enabled. -/
def process (ncro : Package) (cfg : Config) : Option String :=
  if cfg.enable then some (exec ncro cfg.upstreams) else none

/-! ### The lines of the configuration -/

theorem basic_of_quotable {text : String} (h : text.toList.all isQuotable = true) :
    text.toList.all isBasic = true := by
  rw [List.all_eq_true] at h ⊢
  exact fun c hc => (Bool.and_eq_true_iff.mp (h c hc)).2

theorem bodyLiteral_of_quotable {text : String} (h : text.toList.all isQuotable = true) :
    ∀ c ∈ text.toList, isBodyLiteral c = true :=
  fun c hc => (Bool.and_eq_true_iff.mp (List.all_eq_true.mp h c hc)).1

def Upstream.pairs (c : Upstream) : List (Key × Value) :=
  [(⟨⟨"url", by decide, by decide⟩, []⟩, .string ⟨c.url.text, basic_of_quotable c.url_quotable⟩),
    (⟨⟨"priority", by decide, by decide⟩, []⟩, .integer c.priority),
    (⟨⟨"public_key", by decide, by decide⟩, []⟩,
      .string ⟨c.publicKey.text, basic_of_quotable c.key_quotable⟩)]

def upstreamsName : BareKey := ⟨"upstreams", by decide, by decide⟩
def cacheName : BareKey := ⟨"cache", by decide, by decide⟩
def loggingName : BareKey := ⟨"logging", by decide, by decide⟩

def lines (pairs : List (Key × Value)) : List Line := pairs.map fun p => .pair p.1 p.2

def Upstream.lines (c : Upstream) : List Line := .element upstreamsName :: Ncro.lines c.pairs

def serverPairs : List (Key × Value) :=
  [(⟨⟨"server", by decide, by decide⟩, [⟨"listen", by decide, by decide⟩]⟩,
    .string ⟨":8080", by decide⟩)]

def dbPath (path : BasicString) : Key × Value :=
  (⟨⟨"db_path", by decide, by decide⟩, []⟩, .string path)

/-- The pairs of `[cache]` after the path. -/
def cachePairs : List (Key × Value) :=
  [(⟨⟨"max_entries", by decide, by decide⟩, []⟩, .integer ⟨100000, by decide⟩),
    (⟨⟨"ttl", by decide, by decide⟩, []⟩, .string ⟨"1h", by decide⟩),
    (⟨⟨"latency_alpha", by decide, by decide⟩, []⟩,
      .fraction 0 ⟨"3", by decide, by decide⟩)]

def loggingPairs : List (Key × Value) :=
  [(⟨⟨"level", by decide, by decide⟩, []⟩, .string ⟨"info", by decide⟩),
    (⟨⟨"format", by decide, by decide⟩, []⟩, .string ⟨"json", by decide⟩)]

/-- The lines before the path of the database, and those after it. -/
def firstLines (upstreams : List Upstream) : List Line :=
  lines serverPairs ++ .blank :: ([Line.blank].intercalate (upstreams.map Upstream.lines) ++
    [.blank, .blank, .table cacheName])

def lastLines : List Line := lines cachePairs ++ .blank :: .table loggingName :: lines loggingPairs

def configLines (upstreams : List Upstream) (path : BasicString) : List Line :=
  firstLines upstreams ++ .pair (dbPath path).1 (dbPath path).2 :: lastLines

/-- What the configuration says. -/
def document (upstreams : List Upstream) (path : BasicString) : List Section :=
  ⟨.top, serverPairs⟩ :: (upstreams.map fun c => ⟨.element upstreamsName, c.pairs⟩) ++
    [⟨.table cacheName, dbPath path :: cachePairs⟩, ⟨.table loggingName, loggingPairs⟩]

theorem sections_upstream (current : Section) (c : Upstream) (rest : List Line) :
    sections current (c.lines ++ rest) =
      current :: sections ⟨.element upstreamsName, c.pairs⟩ rest := rfl

theorem sections_upstreams (current : Section) (upstreams : List Upstream) (rest : List Line) :
    sections current ([Line.blank].intercalate (upstreams.map Upstream.lines) ++
        .blank :: .blank :: .table cacheName :: rest) =
      current :: (upstreams.map fun c => ⟨.element upstreamsName, c.pairs⟩) ++
        sections ⟨.table cacheName, []⟩ rest := by
  induction upstreams generalizing current with
  | nil => rfl
  | cons c upstreams ih =>
    by_cases hnil : upstreams = []
    · subst hnil
      rw [List.map_singleton, List.intercalate_singleton, sections_upstream]
      rfl
    · have hne : upstreams.map Upstream.lines ≠ [] := by simpa using hnil
      have hblank := ih ⟨.element upstreamsName, c.pairs⟩
      rw [List.map_cons, List.intercalate_cons_of_ne_nil hne, List.append_assoc,
        List.append_assoc, sections_upstream, List.singleton_append, sections, hblank]
      rfl

theorem sections_configLines (upstreams : List Upstream) (path : BasicString) :
    sections ⟨.top, []⟩ (configLines upstreams path) = document upstreams path := by
  have htext : configLines upstreams path = lines serverPairs ++ .blank ::
      ([Line.blank].intercalate (upstreams.map Upstream.lines) ++
        .blank :: .blank :: .table cacheName :: .pair (dbPath path).1 (dbPath path).2 :: lastLines) := by
    simp [configLines, firstLines]
  have hserver (rest : List Line) : sections ⟨.top, []⟩ (lines serverPairs ++ .blank :: rest) =
      sections ⟨.top, serverPairs⟩ rest := rfl
  rw [htext, hserver, sections_upstreams]
  rfl

theorem consistent_document (upstreams : List Upstream) (path : BasicString) :
    Consistent (document upstreams path) := by
  have htables : tableNames (document upstreams path) = [cacheName, loggingName] := by
    simp [document, tableNames, Header.tableName, List.filterMap_map]
  have helements : ∀ name ∈ elementNames (document upstreams path), name = upstreamsName := by
    simp [document, elementNames, Header.elementName, List.filterMap_map]
  have htop : topNames (document upstreams path) = [⟨"server", by decide, by decide⟩] := by
    simp [document, topNames, List.filter_map, Function.comp_def, serverPairs]
  refine ⟨?_, ?_, ?_, ?_⟩
  · rw [htables]
    decide
  · rw [htables]
    intro name hname hmem
    rw [helements name hmem] at hname
    exact absurd hname (by decide)
  · rw [htop, htables]
    intro name hname
    rw [List.mem_singleton.mp hname]
    refine ⟨by decide, ?_⟩
    intro hmem
    exact absurd (helements _ hmem) (by decide)
  · intro s hs
    simp only [document, List.cons_append, List.mem_cons, List.mem_append, List.mem_map,
      List.not_mem_nil, or_false] at hs
    rcases hs with rfl | ⟨c, _, rfl⟩ | rfl | rfl
    · decide
    · have hkeys : c.pairs.map Prod.fst = [⟨⟨"url", by decide, by decide⟩, []⟩,
          ⟨⟨"priority", by decide, by decide⟩, []⟩,
          ⟨⟨"public_key", by decide, by decide⟩, []⟩] := rfl
      rw [hkeys]
      decide
    · have hkeys : (dbPath path :: cachePairs).map Prod.fst = [⟨⟨"db_path", by decide, by decide⟩, []⟩,
          ⟨⟨"max_entries", by decide, by decide⟩, []⟩, ⟨⟨"ttl", by decide, by decide⟩, []⟩,
          ⟨⟨"latency_alpha", by decide, by decide⟩, []⟩] := rfl
      rw [hkeys]
      decide
    · decide

/-! ### The text of the script -/

theorem render_eq (lines : List Line) : render lines = joinLines (lines.map Line.render) := by
  rw [render, joinLines, List.map_map]
  rfl

/-- The lines of one table. -/
def upstreamTexts (c : Upstream) : List String :=
  ["[[upstreams]]", "url = \"" ++ c.url.text ++ "\"", "priority = " ++ c.priority.val.repr,
    "public_key = \"" ++ c.publicKey.text ++ "\""]

theorem upstreamTable_eq (c : Upstream) : upstreamTable c = joinLines (upstreamTexts c) := by
  have hheader : "[[upstreams]]\n" = "[[upstreams]]" ++ "\n" := rfl
  have hquote : "\"\n" = "\"" ++ "\n" := rfl
  have hnil : joinLines [] = "" := rfl
  unfold upstreamTable upstreamTexts
  simp only [joinLines_cons, hheader, hquote, ← String.append_assoc, hnil, String.append_empty]

theorem render_upstream (c : Upstream) : c.lines.map Line.render = upstreamTexts c := by
  have hheader : (Line.element upstreamsName).render = "[[upstreams]]" := rfl
  have hurl : "url" ++ " = " ++ "\"" = "url = \"" := rfl
  have hpriority : "priority" ++ " = " = "priority = " := rfl
  have hkey : "public_key" ++ " = " ++ "\"" = "public_key = \"" := rfl
  simp only [Upstream.lines, Ncro.lines, Upstream.pairs, List.map_cons, List.map_nil, hheader]
  simp only [Line.render, Key.render, Key.path, Value.render, List.map_cons, List.map_nil,
    String.intercalate_singleton, upstreamTexts, ← String.append_assoc, hurl, hpriority, hkey]

theorem upstreamTables_eq (upstreams : List Upstream) :
    concatStringsSep "\n" (upstreams.map upstreamTable) =
      joinLines (([Line.blank].intercalate (upstreams.map Upstream.lines)).map Line.render) := by
  induction upstreams with
  | nil => rfl
  | cons c upstreams ih =>
    rw [concatStringsSep] at ih ⊢
    by_cases hnil : upstreams = []
    · subst hnil
      rw [List.map_singleton, String.intercalate_singleton, List.map_singleton,
        List.intercalate_singleton, upstreamTable_eq, render_upstream]
    · have hlines : upstreams.map Upstream.lines ≠ [] := by simpa using hnil
      have htables : upstreams.map upstreamTable ≠ [] := by simpa using hnil
      have hblank : joinLines [Line.blank.render] = "\n" := rfl
      rw [List.map_cons, String.intercalate_cons_of_ne_nil htables, ih, List.map_cons,
        List.intercalate_cons_of_ne_nil hlines, List.map_append, List.map_append, joinLines_append,
        joinLines_append, List.map_singleton, hblank, upstreamTable_eq, render_upstream]

def dbPathLine : String := "db_path = \"$DEVENV_STATE/ncro/routes.db\""

/-- The lines of the here-document. -/
def body (upstreams : List Upstream) : List String :=
  (firstLines upstreams).map Line.render ++ dbPathLine :: lastLines.map Line.render

def mkdirLine : String := "mkdir -p \"$DEVENV_STATE/ncro\""
def catLine : String := "cat > \"$DEVENV_STATE/ncro/config.toml\" <<EOF"

def execLine (ncro : Package) : String :=
  "exec " ++ ncro.outPath ++ "/bin/ncro --config \"$DEVENV_STATE/ncro/config.toml\""

theorem exec_eq (ncro : Package) (upstreams : List Upstream) :
    exec ncro upstreams =
      joinLines (mkdirLine :: catLine :: (body upstreams ++ "EOF" :: [execLine ncro])) := by
  have hhead : joinLines [mkdirLine, catLine, "server.listen = \":8080\"", ""] =
      "mkdir -p \"$DEVENV_STATE/ncro\"\n" ++
        "cat > \"$DEVENV_STATE/ncro/config.toml\" <<EOF\n" ++
        "server.listen = \":8080\"\n\n" := rfl
  have htail : joinLines ("" :: "" :: "[cache]" :: dbPathLine :: (lastLines.map Line.render ++ ["EOF"])) =
      "\n\n" ++ "[cache]\n" ++ "db_path = \"$DEVENV_STATE/ncro/routes.db\"\n" ++
        "max_entries = 100000\n" ++ "ttl = \"1h\"\n" ++ "latency_alpha = 0.3\n\n" ++
        "[logging]\n" ++ "level = \"info\"\n" ++ "format = \"json\"\n" ++ "EOF\n" := rfl
  have hend : joinLines [execLine ncro] =
      "exec " ++ ncro.outPath ++ "/bin/ncro --config \"$DEVENV_STATE/ncro/config.toml\"\n" := by
    have hline : "/bin/ncro --config \"$DEVENV_STATE/ncro/config.toml\"" ++ "\n" =
      "/bin/ncro --config \"$DEVENV_STATE/ncro/config.toml\"\n" := rfl
    have hnil : joinLines [] = "" := rfl
    rw [joinLines_cons, hnil, String.append_empty, execLine, String.append_assoc, hline]
  have hlines : mkdirLine :: catLine :: (body upstreams ++ "EOF" :: [execLine ncro]) =
      [mkdirLine, catLine, "server.listen = \":8080\"", ""] ++
        ([Line.blank].intercalate (upstreams.map Upstream.lines)).map Line.render ++
        ("" :: "" :: "[cache]" :: dbPathLine :: (lastLines.map Line.render ++ ["EOF"])) ++
        [execLine ncro] := by
    have hserver : (lines serverPairs).map Line.render = ["server.listen = \":8080\""] := by
      decide
    have hcache : [.blank, .blank, .table cacheName].map Line.render = ["", "", "[cache]"] := by
      decide
    have hblank : Line.blank.render = "" := rfl
    rw [body, firstLines, List.map_append, List.map_cons, List.map_append, hserver, hcache, hblank]
    simp only [List.cons_append, List.append_assoc, List.nil_append]
  unfold exec
  rw [hlines, joinLines_append, joinLines_append, joinLines_append, hhead, htail, hend,
    upstreamTables_eq]

/-! ### What the shell does -/

/-- The directory of ncro, and its configuration in it. -/
def stateDir (env : Env) : String := env.value "DEVENV_STATE" ++ "/ncro"
def configPath (env : Env) : String := stateDir env ++ "/" ++ "config.toml"

/-- No file is in the way of the directory, and no directory in the way of the file. -/
structure Writable (files : Files) (env : Env) : Prop where
  dirs : ∀ dir ∈ directories [] (stateDir env).toList, files dir = none ∨ files dir = some .dir
  config : files (configPath env) ≠ some .dir

theorem expandQuoted_state (env : Env) (s after : List Char)
    (hs : ('/' :: s).all isLiteral = true) :
    expandQuoted env .literal ("$DEVENV_STATE".toList ++ ('/' :: s ++ '"' :: after)) =
      some ((env.value "DEVENV_STATE").toList ++ '/' :: s, after) :=
  expandQuoted_below env 'D' '/' "EVENV_STATE".toList s after (by decide) (by decide) (by decide) hs

theorem ofList_configPath (env : Env) :
    String.ofList ((env.value "DEVENV_STATE").toList ++ '/' :: "ncro/config.toml".toList) =
      configPath env := by
  rw [String.ofList_append, String.ofList_toList, configPath, stateDir, String.append_assoc,
    String.append_assoc]
  rfl

theorem tokens_mkdirLine (env : Env) : tokens env .blank mkdirLine.toList =
    some [.word "mkdir", .word "-p", .word (stateDir env)] := by
  have htext : mkdirLine.toList = "mkdir".toList ++ ' ' :: ("-p".toList ++ ' ' :: '"' ::
      ("$DEVENV_STATE".toList ++ ('/' :: "ncro".toList ++ ['"']))) := rfl
  have hstate := expandQuoted_state env "ncro".toList [] (by decide)
  have hpath : String.ofList ((env.value "DEVENV_STATE").toList ++ '/' :: "ncro".toList) =
      stateDir env := by
    rw [String.ofList_append, String.ofList_toList]
    rfl
  rw [htext, tokens_word _ (by decide) (by decide), tokens_word _ (by decide) (by decide),
    tokens_quote hstate, tokens, hpath]
  rfl

theorem tokens_catLine (env : Env) : tokens env .blank catLine.toList =
    some [.word "cat", .redirect, .word (configPath env), .here "EOF"] := by
  have htext : catLine.toList = "cat".toList ++ ' ' :: '>' :: ' ' :: '"' ::
      ("$DEVENV_STATE".toList ++ ('/' :: "ncro/config.toml".toList ++
        '"' :: ' ' :: "<<EOF".toList)) := rfl
  have hstate := expandQuoted_state env "ncro/config.toml".toList (' ' :: "<<EOF".toList) (by decide)
  have hhere : tokens env .blank "<<EOF".toList = some [.here "EOF"] := rfl
  rw [htext, tokens_word _ (by decide) (by decide), tokens_redirect, tokens_quote hstate,
    tokens_closed, hhere, ofList_configPath]
  rfl

theorem tokens_execLine (env : Env) (ncro : Package) : tokens env .blank (execLine ncro).toList =
    some [.word "exec", .word (ncro.outPath ++ "/bin/ncro"), .word "--config",
      .word (configPath env)] := by
  have htext : (execLine ncro).toList = "exec".toList ++ ' ' ::
      ((ncro.outPath.toList ++ "/bin/ncro".toList) ++ ' ' :: ("--config".toList ++ ' ' :: '"' ::
        ("$DEVENV_STATE".toList ++ ('/' :: "ncro/config.toml".toList ++ ['"'])))) := by
    have hend : "/bin/ncro --config \"$DEVENV_STATE/ncro/config.toml\"".toList =
        "/bin/ncro".toList ++ ' ' :: ("--config".toList ++ ' ' :: '"' ::
          ("$DEVENV_STATE".toList ++ ('/' :: "ncro/config.toml".toList ++ ['"']))) := by
      decide
    have hbegin : "exec ".toList = "exec".toList ++ [' '] := rfl
    rw [execLine, String.toList_append, String.toList_append, hend, hbegin]
    simp only [List.append_assoc, List.nil_append, List.cons_append]
  have hstate := expandQuoted_state env "ncro/config.toml".toList [] (by decide)
  have hprogram : (ncro.outPath.toList ++ "/bin/ncro".toList).all isBareChar = true := by
    have hbin : "/bin/ncro".toList.all isBareChar = true := by decide
    rw [List.all_append, ncro.bare, hbin, Bool.and_self]
  have hne : ncro.outPath.toList ++ "/bin/ncro".toList ≠ [] := by simp
  have hword : String.ofList (ncro.outPath.toList ++ "/bin/ncro".toList) =
      ncro.outPath ++ "/bin/ncro" := by
    rw [← String.toList_append, String.ofList_toList]
  rw [htext, tokens_word _ (by decide) (by decide), tokens_word _ hne hprogram,
    tokens_word _ (by decide) (by decide), tokens_quote hstate, tokens, ofList_configPath, hword]
  rfl

/-! ### What is written -/

theorem bodyLiteral_of_numberChar {c : Char} (h : isNumberChar c = true) :
    isBodyLiteral c = true := by
  by_contra hspecial
  simp only [isBodyLiteral, Bool.and_eq_true, bne_iff_ne, ne_eq, not_and, Decidable.not_not]
    at hspecial
  by_cases hdollar : c = '$'
  · subst hdollar
    exact absurd h (by decide)
  · by_cases hescape : c = '\\'
    · subst hescape
      exact absurd h (by decide)
    · have htick := hspecial ⟨hdollar, hescape⟩
      subst htick
      exact absurd h (by decide)

/-- The shell leaves the table of an upstream as it is. -/
theorem bodyLiteral_upstream (c : Upstream) :
    ∀ l ∈ c.lines.map Line.render, ∀ x ∈ l.toList, isBodyLiteral x = true := by
  have hlist (s : String) (h : s.toList.all isBodyLiteral = true) :
      ∀ x ∈ s.toList, isBodyLiteral x = true := List.all_eq_true.mp h
  intro l hl
  rw [render_upstream] at hl
  simp only [upstreamTexts, List.mem_cons, List.not_mem_nil, or_false] at hl
  rcases hl with rfl | rfl | rfl | rfl
  · exact hlist _ rfl
  · intro x hx
    rw [String.toList_append, String.toList_append, List.mem_append, List.mem_append] at hx
    rcases hx with (hx | hx) | hx
    · exact hlist _ rfl x hx
    · exact bodyLiteral_of_quotable c.url_quotable x hx
    · exact hlist _ rfl x hx
  · intro x hx
    rw [String.toList_append, List.mem_append] at hx
    rcases hx with hx | hx
    · exact hlist _ rfl x hx
    · exact bodyLiteral_of_numberChar (integer_chars c.priority x hx)
  · intro x hx
    rw [String.toList_append, String.toList_append, List.mem_append, List.mem_append] at hx
    rcases hx with (hx | hx) | hx
    · exact hlist _ rfl x hx
    · exact bodyLiteral_of_quotable c.key_quotable x hx
    · exact hlist _ rfl x hx

theorem mem_intercalate {sep : Line} {parts : List (List Line)} {line : Line}
    (h : line ∈ [sep].intercalate parts) : line = sep ∨ ∃ part ∈ parts, line ∈ part := by
  induction parts with
  | nil => simp at h
  | cons part parts ih =>
    by_cases hnil : parts = []
    · subst hnil
      rw [List.intercalate_singleton] at h
      exact Or.inr ⟨part, List.mem_cons_self, h⟩
    · rw [List.intercalate_cons_of_ne_nil hnil, List.mem_append, List.mem_append,
        List.mem_singleton] at h
      rcases h with (h | h) | h
      · exact Or.inr ⟨part, List.mem_cons_self, h⟩
      · exact Or.inl h
      · rcases ih h with h | ⟨part', hmem, h⟩
        · exact Or.inl h
        · exact Or.inr ⟨part', List.mem_cons_of_mem part hmem, h⟩

theorem bodyLiteral_firstLines (upstreams : List Upstream) :
    ∀ l ∈ (firstLines upstreams).map Line.render, ∀ x ∈ l.toList, isBodyLiteral x = true := by
  have hserver : ∀ l ∈ (lines serverPairs).map Line.render, l.toList.all isBodyLiteral = true := by
    decide
  have hcache : ∀ l ∈ [Line.blank, .blank, .table cacheName].map Line.render,
      l.toList.all isBodyLiteral = true := by
    decide
  intro l hl
  rw [firstLines, List.map_append, List.map_cons, List.map_append, List.mem_append, List.mem_cons,
    List.mem_append] at hl
  rcases hl with hl | rfl | hl | hl
  · exact List.all_eq_true.mp (hserver l hl)
  · simp [Line.render]
  · obtain ⟨line, hline, rfl⟩ := List.mem_map.mp hl
    rcases mem_intercalate hline with rfl | ⟨part, hpart, hline⟩
    · simp [Line.render]
    · obtain ⟨c, _, rfl⟩ := List.mem_map.mp hpart
      exact bodyLiteral_upstream c _ (List.mem_map_of_mem hline)
  · exact List.all_eq_true.mp (hcache l hl)

/-- The path of the database, which may be any text that TOML has as it is. -/
def routesPath (env : Env) (hstate : (env.value "DEVENV_STATE").toList.all isBasic = true) :
    BasicString where
  text := stateDir env ++ "/routes.db"
  basic := by
    have hncro : "/ncro".toList.all isBasic = true := by decide
    have hroutes : "/routes.db".toList.all isBasic = true := by decide
    rw [stateDir, String.toList_append, String.toList_append, List.all_append, List.all_append,
      hstate, hncro, hroutes]
    rfl

theorem render_dbPath (env : Env) (hstate : (env.value "DEVENV_STATE").toList.all isBasic = true) :
    (Line.pair (dbPath (routesPath env hstate)).1 (dbPath (routesPath env hstate)).2).render.toList =
      "db_path = \"".toList ++
        ((env.value "DEVENV_STATE").toList ++ '/' :: "ncro/routes.db\"".toList) := by
  have hkey : (⟨⟨"db_path", by decide, by decide⟩, []⟩ : Key).render ++ " = " ++ "\"" =
      "db_path = \"" := rfl
  have hroutes : "/ncro".toList ++ "/routes.db".toList ++ "\"".toList =
      '/' :: "ncro/routes.db\"".toList := rfl
  rw [← hkey, ← hroutes]
  show (_ ++ " = " ++ ("\"" ++ (stateDir env ++ "/routes.db") ++ "\"")).toList = _
  rw [stateDir]
  simp only [String.toList_append, List.append_assoc]
  rfl

theorem expandHere_body (env : Env) (upstreams : List Upstream)
    (hstate : (env.value "DEVENV_STATE").toList.all isBasic = true) :
    expandHere env .literal (joinLines (body upstreams)).toList =
      some (render (configLines upstreams (routesPath env hstate))).toList := by
  have hfirst : ∀ x ∈ (joinLines ((firstLines upstreams).map Line.render)).toList ++
      "db_path = \"".toList, isBodyLiteral x = true := by
    intro x hx
    rcases List.mem_append.mp hx with hx | hx
    · rw [toList_joinLines, unlines] at hx
      obtain ⟨line, hline, hx⟩ := List.mem_flatMap.mp hx
      obtain ⟨l, hl, rfl⟩ := List.mem_map.mp hline
      rcases List.mem_append.mp hx with hx | hx
      · exact bodyLiteral_firstLines upstreams l hl x hx
      · rw [List.mem_singleton.mp hx]
        decide
    · have hkey : "db_path = \"".toList.all isBodyLiteral = true := by decide
      exact List.all_eq_true.mp hkey x hx
  let after := "ncro/routes.db\"".toList ++ '\n' :: (joinLines (lastLines.map Line.render)).toList
  have hafter : ∀ x ∈ '/' :: after, isBodyLiteral x = true := by
    have hall : ('/' :: after).all isBodyLiteral = true := by decide
    exact List.all_eq_true.mp hall
  have hraw : (joinLines (body upstreams)).toList =
      ((joinLines ((firstLines upstreams).map Line.render)).toList ++ "db_path = \"".toList) ++
        ('$' :: 'D' :: "EVENV_STATE".toList ++ '/' :: after) := by
    have hline : dbPathLine.toList = "db_path = \"".toList ++
        ('$' :: 'D' :: "EVENV_STATE".toList ++ '/' :: "ncro/routes.db\"".toList) := rfl
    rw [body, joinLines_append, joinLines_cons, String.toList_append, String.toList_append,
      String.toList_append, hline]
    simp only [after, List.append_assoc, List.cons_append]
    rfl
  have hend : expandHere env .literal ('/' :: after) = some ('/' :: after) := by
    have h := expandHere_literal env ('/' :: after) [] hafter
    rw [List.append_nil] at h
    rw [h]
    simp [expandHere, QuoteState.flush]
  rw [hraw, expandHere_literal env _ _ hfirst, expandHere_variable env 'D' '/' _ _ (by decide)
    (by decide) (by decide) (by decide), hend]
  rw [render_eq, configLines, List.map_append, List.map_cons, joinLines_append, joinLines_cons,
    String.toList_append, String.toList_append, String.toList_append, render_dbPath]
  simp only [after, List.append_assoc, List.cons_append, Option.map_some]
  rfl

/-! ### Running the script -/

theorem body_cases {upstreams : List Upstream} {l : String} (hl : l ∈ body upstreams) :
    (∃ line : Line, l = line.render) ∨ l = dbPathLine := by
  rw [body, List.mem_append, List.mem_cons] at hl
  rcases hl with hl | hl | hl
  · obtain ⟨line, _, rfl⟩ := List.mem_map.mp hl
    exact Or.inl ⟨line, rfl⟩
  · exact Or.inr hl
  · obtain ⟨line, _, rfl⟩ := List.mem_map.mp hl
    exact Or.inl ⟨line, rfl⟩

theorem no_newline_body (upstreams : List Upstream) :
    ∀ l ∈ (body upstreams).map String.toList, '\n' ∉ l := by
  intro l hl
  obtain ⟨l, hmem, rfl⟩ := List.mem_map.mp hl
  rcases body_cases hmem with ⟨line, rfl⟩ | rfl
  · exact no_newline_render line
  · decide

/-- The delimiter is no line of the document, as none of these is refused. -/
theorem delimiter_not_mem_body (upstreams : List Upstream) :
    "EOF".toList ∉ (body upstreams).map String.toList := by
  intro hmem
  obtain ⟨l, hl, heq⟩ := List.mem_map.mp hmem
  rcases body_cases hl with ⟨line, rfl⟩ | rfl
  · have hread := readLine_render line
    have hnone : readLine "EOF".toList = none := by decide
    rw [heq, hnone] at hread
    simp at hread
  · exact absurd heq (by decide)

theorem no_backslash_body (upstreams : List Upstream) :
    ∀ l ∈ (body upstreams).map String.toList, '\\' ∉ l := by
  have hlast : ∀ l ∈ dbPathLine :: lastLines.map Line.render, '\\' ∉ l.toList := by decide
  intro l hl
  obtain ⟨l, hmem, rfl⟩ := List.mem_map.mp hl
  rw [body, List.mem_append] at hmem
  rcases hmem with hmem | hmem
  · intro hslash
    exact absurd (bodyLiteral_firstLines upstreams l hmem _ hslash) (by decide)
  · exact hlast l hmem

theorem splitOn_exec (ncro : Package) (upstreams : List Upstream) :
    (exec ncro upstreams).toList.splitOn '\n' =
      mkdirLine.toList :: catLine.toList ::
        ((body upstreams).map String.toList ++ "EOF".toList :: [(execLine ncro).toList, []]) := by
  have hexec : '\n' ∉ (execLine ncro).toList := by
    have hcommand : '\n' ∉ "/bin/ncro --config \"$DEVENV_STATE/ncro/config.toml\"".toList := by
      decide
    have hpath : '\n' ∉ ncro.outPath.toList :=
      fun h => absurd (List.all_eq_true.mp ncro.bare _ h) (by decide)
    rw [execLine, String.toList_append, String.toList_append, List.mem_append, List.mem_append]
    rintro ((h | h) | h)
    · exact absurd h (by decide)
    · exact hpath h
    · exact hcommand h
  rw [exec_eq, toList_joinLines, splitOn_unlines]
  · simp only [List.map_cons, List.map_append, List.map_nil, List.cons_append, List.append_assoc,
      List.nil_append]
  · intro l hl
    simp only [List.map_cons, List.map_append, List.map_nil, List.mem_cons, List.mem_append,
      List.not_mem_nil, or_false] at hl
    rcases hl with rfl | rfl | hl | rfl | rfl
    · decide
    · decide
    · exact no_newline_body upstreams l hl
    · decide
    · exact hexec

/-- The files once the script has run. -/
structure Configured (env : Env) (files files' : Files) (text : String) : Prop where
  config : files' (configPath env) = some (.file text)
  dirs : ∀ dir ∈ directories [] (stateDir env).toList, files' dir = some .dir
  rest : ∀ path, path ≠ configPath env → path ∉ directories [] (stateDir env).toList →
    files' path = files path

theorem configPath_not_mem (env : Env) :
    configPath env ∉ directories [] (stateDir env).toList := by
  intro h
  have hlen := length_of_mem_directories h
  have hconfig : "config.toml".toList.length = 11 := by decide
  rw [configPath, String.toList_append, String.toList_append, List.length_append,
    List.length_append, hconfig] at hlen
  simp at hlen
  omega

theorem write_config {env : Env} {files : Files} (h : Writable files env) (text : String) :
    ∃ files₁ files₂, files.mkdirParents (stateDir env) = some files₁ ∧
      files₁.write (configPath env) text = some files₂ ∧ Configured env files files₂ text := by
  let dirs := directories [] (stateDir env).toList
  let files₁ : Files := fun other => if other ∈ dirs then some .dir else files other
  have hmkdir : files.mkdirParents (stateDir env) = some files₁ := if_pos h.dirs
  have hparent : parent (configPath env) = stateDir env := parent_append _ _ (by decide)
  have hstate : files₁ (stateDir env) = some .dir := if_pos (self_mem_directories _)
  have hconfig : files₁ (configPath env) = files (configPath env) :=
    if_neg (configPath_not_mem env)
  refine ⟨files₁, _, hmkdir, if_pos ⟨hparent ▸ hstate, hconfig ▸ h.config⟩, ?_, ?_, ?_⟩
  · exact if_pos rfl
  · intro dir hdir
    have hne : dir ≠ configPath env := fun heq => configPath_not_mem env (heq ▸ hdir)
    exact (if_neg hne).trans (if_pos hdir)
  · intro path hne hnot
    exact (if_neg hne).trans (if_neg hnot)

section Process

variable {ncro : Package} {cfg : Config} {env : Env} {files : Files} {script : String}

/-- The script runs ncro on the file that it has written. -/
theorem runText_process (h : process ncro cfg = some script)
    (hstate : (env.value "DEVENV_STATE").toList.all isBasic = true) (hfiles : Writable files env) :
    ∃ files', runText env files script = some (files',
        [.word (ncro.outPath ++ "/bin/ncro"), .word "--config", .word (configPath env)]) ∧
      Configured env files files' (render (configLines cfg.upstreams (routesPath env hstate))) := by
  have hscript : script = exec ncro cfg.upstreams := by
    unfold process at h
    split at h
    · exact (Option.some.inj h).symm
    · simp at h
  subst hscript
  obtain ⟨files₁, files₂, hmkdir, hwrite, hconfigured⟩ :=
    write_config hfiles (render (configLines cfg.upstreams (routesPath env hstate)))
  have hcontents : expandHere env .literal (unlines ((body cfg.upstreams).map String.toList)) =
      some (render (configLines cfg.upstreams (routesPath env hstate))).toList := by
    rw [← toList_joinLines, expandHere_body env cfg.upstreams hstate]
  refine ⟨files₂, ?_, hconfigured⟩
  rw [runText, splitOn_exec, runCommands_mkdir (tokens_mkdirLine env) hmkdir,
    runCommands_cat (tokens_catLine env) (delimiter_not_mem_body _) (no_backslash_body _) hcontents
      (by rw [String.ofList_toList]; exact hwrite),
    runCommands_exec (tokens_execLine env ncro)]

theorem readToml_config (upstreams : List Upstream) (path : BasicString) :
    readToml (render (configLines upstreams path)) = some (document upstreams path) := by
  have hconsistent := consistent_document upstreams path
  rw [← sections_configLines] at hconsistent ⊢
  exact readToml_render _ hconsistent

/-- **What is declared is what ncro reads.**  The script runs ncro on a file that it has
    written, and that file is valid TOML: the upstreams in their order, and the path of the
    database below `DEVENV_STATE`. -/
theorem process_config (h : process ncro cfg = some script)
    (hstate : (env.value "DEVENV_STATE").toList.all isBasic = true) (hfiles : Writable files env) :
    ∃ files' text, runText env files script = some (files',
        [.word (ncro.outPath ++ "/bin/ncro"), .word "--config", .word (configPath env)]) ∧
      Configured env files files' text ∧
      readToml text = some (document cfg.upstreams (routesPath env hstate)) := by
  obtain ⟨files', hrun, hconfigured⟩ := runText_process h hstate hfiles
  exact ⟨files', _, hrun, hconfigured, readToml_config _ _⟩

/-- A project where nothing has been written yet. -/
def repoEnv : Env := fun name => if name = "DEVENV_STATE" then some "/repo/.devenv/state" else none

theorem writable_repo : Writable (fun _ => none) repoEnv :=
  ⟨fun _ _ => Or.inl rfl, nofun⟩

theorem process_config_default : ∃ (files' : Files) (text : String),
    files' (configPath repoEnv) = some (.file text) ∧
      readToml text = some (document defaultUpstreams (routesPath repoEnv (by decide))) := by
  have h : process ⟨"/nix/store/ncro", by decide⟩ {} =
      some (exec ⟨"/nix/store/ncro", by decide⟩ defaultUpstreams) := rfl
  obtain ⟨files', text, _, hconfigured, hread⟩ := process_config h _ writable_repo
  exact ⟨files', text, hconfigured.config, hread⟩

/-! ### The proxy and Nix -/

/-- An upstream, by its address, its priority and its key. -/
def readUpstream (s : Section) : Option (String × Int × String) :=
  match s.value ["url"], s.value ["priority"], s.value ["public_key"] with
  | some (.string url), some (.integer priority), some (.string key) =>
    some (url.text, priority.val, key.text)
  | _, _, _ => none

/-- The upstreams of a configuration. -/
def raced (doc : List Section) : List (String × Int × String) :=
  (elements doc "upstreams").filterMap readUpstream

/-- The address that ncro listens on. -/
def listen (doc : List Section) : Option String :=
  match (doc.find? fun s => s.header = .top).bind fun s => s.value ["server", "listen"] with
  | some (.string address) => some address.text
  | _ => none

theorem readUpstream_pairs (c : Upstream) :
    readUpstream ⟨.element upstreamsName, c.pairs⟩ =
      some (c.url.text, c.priority.val, c.publicKey.text) := by
  simp [readUpstream, Section.value, Upstream.pairs, Key.path]

theorem elements_document (upstreams : List Upstream) (path : BasicString) :
    elements (document upstreams path) "upstreams" =
      upstreams.map fun c => ⟨.element upstreamsName, c.pairs⟩ := by
  rw [elements, document, List.filter_append, List.filter_cons_of_neg (by decide),
    List.filter_eq_self.mpr]
  · exact List.append_nil _
  · intro s hs
    obtain ⟨c, _, rfl⟩ := List.mem_map.mp hs
    exact decide_eq_true rfl

theorem raced_document (upstreams : List Upstream) (path : BasicString) :
    raced (document upstreams path) =
      upstreams.map fun c => (c.url.text, c.priority.val, c.publicKey.text) := by
  rw [raced, elements_document, List.filterMap_map]
  have hread : (readUpstream ∘ fun c : Upstream => ⟨.element upstreamsName, c.pairs⟩) =
      some ∘ fun c => (c.url.text, c.priority.val, c.publicKey.text) :=
    funext readUpstream_pairs
  rw [hread, List.filterMap_eq_map]

theorem listen_document (upstreams : List Upstream) (path : BasicString) :
    listen (document upstreams path) = some ":8080" := rfl

end Process

end DevenvTemplate.Ncro

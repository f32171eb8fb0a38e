import DevenvTemplate.NixLib
import DevenvTemplate.SettingsText

/-!
# Binary caches

`dev/ncro.nix` lists the upstream caches and `dev/base.nix` writes them into
`NIX_CONFIG`.  `readSettings_nixConfig` is what Nix reads there: the proxy first, if
it is enabled, then every upstream in order, and the keys of the upstreams.
-/

namespace DevenvTemplate.Caches

open Nix SettingsText

/-- `upstreamSubmodule`, with texts that are one word each. -/
structure Upstream where
  url : Word
  publicKey : Word

def defaultUpstreams : List Upstream :=
  [⟨⟨"https://cache.nixos.org", by decide, by decide⟩,
      ⟨"cache.nixos.org-1:6NCHdD59X431o0gWypbMrAURkbJ16ZPMQFGspcDShjY=", by decide, by decide⟩⟩,
    ⟨⟨"https://nix-community.cachix.org", by decide, by decide⟩,
      ⟨"nix-community.cachix.org-1:mB9FSh9qf2dCimDSUo8Zy7bkq5CX+/rkCWyvRCYg3Fs=", by decide,
        by decide⟩⟩,
    ⟨⟨"https://cache.numtide.com", by decide, by decide⟩,
      ⟨"niks3.numtide.com-1:DTx8wZduET09hRmMtKdQDxNNthLQETkc/yaX7M4qK0g=", by decide, by decide⟩⟩,
    ⟨⟨"https://cache.flox.dev", by decide, by decide⟩,
      ⟨"flox-cache-public-1:7F4OyH7ZCnFhcze3fJdfyXYLQw/aV7GEed86nQ7IsOs=", by decide, by decide⟩⟩,
    ⟨⟨"https://nixpkgs-unfree.cachix.org", by decide, by decide⟩,
      ⟨"nixpkgs-unfree.cachix.org-1:hqvoInulhbV4nJ9yJOEr+4wxhDV4xq2d1DK7S6Nj6rs=", by decide,
        by decide⟩⟩]

/-- `templateConfig.ncro`. -/
structure NcroConfig where
  enable : Bool := true
  upstreams : List Upstream := defaultUpstreams

def proxy : Word := ⟨"http://localhost:8080", by decide, by decide⟩

def connectTimeout : Setting :=
  ⟨⟨"connect-timeout", by decide, by decide⟩, [⟨"2", by decide, by decide⟩]⟩

def experimentalFeatures : Setting :=
  ⟨⟨"experimental-features", by decide, by decide⟩,
    [⟨"nix-command", by decide, by decide⟩, ⟨"flakes", by decide, by decide⟩,
      ⟨"ca-derivations", by decide, by decide⟩]⟩

/-! ### `base.nix` -/

section Base

variable (cfg : NcroConfig)

def substituters : List String :=
  (if cfg.enable then ["http://localhost:8080"] else []) ++ cfg.upstreams.map fun c => c.url.text

def pubkeys : List String := cfg.upstreams.map fun c => c.publicKey.text

def nixConfig : String :=
  String.join
    ["connect-timeout = 2\n",
      "substituters = " ++ concatStringsSep " " (substituters cfg) ++ "\n",
      "trusted-public-keys = " ++ concatStringsSep " " (pubkeys cfg) ++ "\n",
      "experimental-features = nix-command flakes ca-derivations\n"]

/-! ### What Nix reads -/

def settings : List Setting :=
  [connectTimeout,
    ⟨⟨"substituters", by decide, by decide⟩,
      (if cfg.enable then [proxy] else []) ++ cfg.upstreams.map Upstream.url⟩,
    ⟨⟨"trusted-public-keys", by decide, by decide⟩, cfg.upstreams.map Upstream.publicKey⟩,
    experimentalFeatures]

theorem substituters_eq : substituters cfg =
    ((if cfg.enable then [proxy] else []) ++ cfg.upstreams.map Upstream.url).map Word.text := by
  rw [substituters, List.map_append, List.map_map]
  cases cfg.enable with
  | true => rfl
  | false => rfl

theorem pubkeys_eq : pubkeys cfg = (cfg.upstreams.map Upstream.publicKey).map Word.text := by
  rw [pubkeys, List.map_map]
  rfl

theorem nixConfig_eq_render : nixConfig cfg = render (settings cfg) := by
  have htimeout : connectTimeout.line ++ "\n" = "connect-timeout = 2\n" := by decide +kernel
  have hfeatures : experimentalFeatures.line ++ "\n" =
      "experimental-features = nix-command flakes ca-derivations\n" := by decide +kernel
  have hsubstituters : "substituters" ++ " = " = "substituters = " := by decide +kernel
  have hkeys : "trusted-public-keys" ++ " = " = "trusted-public-keys = " := by decide +kernel
  simp only [nixConfig, render, settings, List.map_cons, List.map_nil, htimeout, hfeatures]
  simp only [Setting.line, hsubstituters, hkeys, substituters_eq, pubkeys_eq, concatStringsSep]

/-- **What the configuration says is what Nix reads.** -/
theorem readSettings_nixConfig : readSettings (nixConfig cfg) =
    [("connect-timeout", ["2"]), ("substituters", substituters cfg),
      ("trusted-public-keys", pubkeys cfg),
      ("experimental-features", ["nix-command", "flakes", "ca-derivations"])] := by
  rw [nixConfig_eq_render, readSettings_render, substituters_eq, pubkeys_eq]
  rfl

/-- Every upstream can be fallen back to, with its key trusted. -/
theorem upstream_trusted {c : Upstream} (hc : c ∈ cfg.upstreams) :
    ∃ urls keys, ("substituters", urls) ∈ readSettings (nixConfig cfg) ∧ c.url.text ∈ urls ∧
      ("trusted-public-keys", keys) ∈ readSettings (nixConfig cfg) ∧ c.publicKey.text ∈ keys := by
  rw [readSettings_nixConfig]
  refine ⟨substituters cfg, pubkeys cfg, by simp, ?_, by simp, ?_⟩
  · exact List.mem_append_right _ (List.mem_map.mpr ⟨c, hc, rfl⟩)
  · exact List.mem_map.mpr ⟨c, hc, rfl⟩

end Base

end DevenvTemplate.Caches

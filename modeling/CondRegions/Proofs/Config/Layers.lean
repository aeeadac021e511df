import CondRegions.Config
import CondRegions.Proofs.Files.Access

/-!
# Layers of a configuration

A configuration is put together by insertions, each of which overwrites what was there. Read from
the other end, this is a list of layers: the value of a key is that of the highest layer that has
one (`Config.layers`). The mode decides which env files are layers.

Building fails if there is a fault, and then reports the first one (`Config.faults`): one of the
options file, without which the mode is not known, or one of an env file of the mode, or one of a
definition given by hand.

* `Options.keys_of_ofText` — which keys of an options file are definitions;
* `Config.run_loadEnv`, `Config.define_eq` — env files and definitions given by hand, with their
  faults;
* `Config.build_layers` — what building comes to.
-/

namespace CondRegions

/-! ### Options files -/

namespace Options

/-- The keys at the top of a JSON document, in order. -/
def jsonKeys? (text : String) : Option (List String) :=
  match Json.parse? text with
  | some (.object entries) => some (entries.map Prod.fst)
  | _ => none

/-- The keys at the top of a YAML document, in order. -/
def yamlKeys? (text : String) : Option (List String) :=
  match Yaml.Node.ofText? text with
  | some (some node) => (node.resolve?.bind nodeEntries?).map (·.map Prod.fst)
  | some none => some []
  | none => none

/-- The keys at the top of an options file, by its extension. -/
def documentKeys? (path text : String) : Option (List String) :=
  match Path.extension path with
  | "json" => jsonKeys? text
  | "yaml" | "yml" => yamlKeys? text
  | _ => none

/-- The keys without a meaning of their own. -/
def freeKeys (keys : List String) : List String :=
  keys.filter fun key => !reservedKeys.contains key

theorem keys_filter {α : Type} (entries : List (String × α)) :
    (entries.filter fun (key, _) => !reservedKeys.contains key).map Prod.fst =
      freeKeys (entries.map Prod.fst) := by
  unfold freeKeys
  rw [List.filter_map]
  rfl

theorem keys_of_ofJson? {text : String} {o : Options} (h : ofJson? text = some o) :
    ∃ keys, jsonKeys? text = some keys ∧ o.others.map Prod.fst = freeKeys keys := by
  unfold ofJson? at h
  split at h
  · next entries hentries =>
    unfold jsonKeys?
    rw [hentries]
    refine ⟨entries.map Prod.fst, rfl, ?_⟩
    by_cases hrepeated : hasRepeatedKey (entries.map Prod.fst) = true
    · rw [if_pos hrepeated] at h
      cases h
    · rw [if_neg hrepeated] at h
      simp only [bind, Option.bind_eq_some_iff] at h
      obtain ⟨env, -, included, -, excluded, -, mode, -, ho⟩ := h
      obtain rfl := Option.some.inj ho
      exact keys_filter entries
  · cases h

/-- Turning values into data keeps the keys. -/
theorem keys_of_entriesToJson? {rule : Yaml.KeyRule} {entries : List (String × YamlNode)}
    {js : List (String × Json)} (h : entriesToJson? rule entries = some js) :
    js.map Prod.fst = entries.map Prod.fst := by
  unfold entriesToJson? at h
  induction entries generalizing js with
  | nil =>
    obtain rfl := Option.some.inj h
    rfl
  | cons entry entries ih =>
    rw [List.mapM_cons] at h
    simp only [bind, Option.bind_eq_some_iff] at h
    obtain ⟨j, hj, js', hjs', hresult⟩ := h
    obtain rfl := Option.some.inj hresult
    obtain ⟨json, -, rfl⟩ := Option.map_eq_some_iff.mp hj
    rw [List.map_cons, List.map_cons, ih hjs']

theorem keys_of_ofNode? {node : YamlNode} {o : Options} (h : ofNode? node = some o) :
    ∃ entries, nodeEntries? node = some entries ∧
      o.others.map Prod.fst = freeKeys (entries.map Prod.fst) := by
  unfold ofNode? at h
  simp only [bind, Option.bind_eq_some_iff] at h
  obtain ⟨entries, hentries, h⟩ := h
  refine ⟨entries, hentries, ?_⟩
  by_cases hrepeated : hasRepeatedKey (entries.map Prod.fst) = true
  · rw [if_pos hrepeated] at h
    cases h
  · rw [if_neg hrepeated] at h
    simp only [Option.bind_eq_some_iff] at h
    obtain ⟨env, -, included, -, excluded, -, mode, -, envJson, -, others, hothers, ho⟩ := h
    obtain rfl := Option.some.inj ho
    rw [← keys_filter]
    exact keys_of_entriesToJson? hothers

theorem keys_of_ofYaml? {text : String} {o : Options} (h : ofYaml? text = some o) :
    ∃ keys, yamlKeys? text = some keys ∧ o.others.map Prod.fst = freeKeys keys := by
  unfold ofYaml? at h
  split at h
  · next node hnode =>
    obtain ⟨resolved, hresolved, hoptions⟩ := Option.bind_eq_some_iff.mp h
    obtain ⟨entries, hentries, hkeys⟩ := keys_of_ofNode? hoptions
    refine ⟨entries.map Prod.fst, ?_, hkeys⟩
    unfold yamlKeys?
    simp only [hnode, hresolved, Option.bind_some, hentries, Option.map_some]
  · next hnone =>
    -- a text without a document has no keys and gives no definitions
    obtain rfl := Option.some.inj h
    refine ⟨[], ?_, rfl⟩
    unfold yamlKeys?
    rw [hnone]
  · cases h

/-- Only what can be read is accepted. -/
theorem eq_some_of_accepted {read : Option Options} {d : Diagnostic} {o : Options}
    (h : (match read with
      | some o => Except.ok o
      | none => .error d) = .ok o) : read = some o := by
  cases read with
  | none => cases h
  | some o' => rw [Except.ok.inj h]

/-- **The definitions of an options file.** The keys besides the `env` map are those at the top of
the document, without the keys that have a meaning of their own. -/
theorem keys_of_ofText {path text : String} {o : Options} (h : ofText path text = .ok o) :
    ∃ keys, documentKeys? path text = some keys ∧ o.others.map Prod.fst = freeKeys keys := by
  unfold ofText at h
  split at h
  · next hext => simpa only [documentKeys?, hext] using keys_of_ofJson? (eq_some_of_accepted h)
  · next hext => simpa only [documentKeys?, hext] using keys_of_ofYaml? (eq_some_of_accepted h)
  · next hext => simpa only [documentKeys?, hext] using keys_of_ofYaml? (eq_some_of_accepted h)
  · cases h

end Options

/-- The options that a file of the tree gives, if one is named. -/
def FileTree.options (t : FileTree) : Option String → Except Diagnostic Options
  | none => .ok .empty
  | some path =>
    match t.readText path with
    | .error e => .error (.unreadable "config" path e)
    | .ok text => Options.ofText path text

theorem Options.run_load? (t : FileTree) (path? : Option String) :
    (Options.load? FileTree.host path?).run t = (t.options path?, t) := by
  cases path? with
  | none => rfl
  | some path =>
    show (Options.load FileTree.host path).run t = _
    unfold Options.load FileTree.options
    rw [FileTree.run_bind_of_run (FileTree.run_readText t path)]
    dsimp only
    cases t.readText path <;> rfl

namespace Config

/-! ### Env files -/

/-- The assignments of an env file; there are none if no file or no text is there. -/
def envAssignments (t : FileTree) (dir name : String) : List (String × String) :=
  match t.readText (Path.join dir name) with
  | .ok text => EnvFile.parse text
  | .error _ => []

/-- What is wrong with an env file, which need not exist: its bytes encode no text. -/
def envFault? (t : FileTree) (dir name : String) : Option Diagnostic :=
  match t.readBytes (Path.join dir name) with
  | .ok bytes =>
    if (String.fromUTF8? bytes).isSome then none
    else some (.unreadable "config" (Path.join dir name) .notText)
  | .error _ => none

/-- An env file is absent, or a text, or a file without text; it has a fault in the last case
only. -/
theorem envFile_cases (t : FileTree) (dir name : String) :
    (t.isFile (Path.join dir name) = false ∧ envFault? t dir name = none ∧
      envAssignments t dir name = []) ∨
    (∃ text, t.isFile (Path.join dir name) = true ∧ t.readText (Path.join dir name) = .ok text ∧
      envFault? t dir name = none ∧ envAssignments t dir name = EnvFile.parse text) ∨
    (t.isFile (Path.join dir name) = true ∧ t.readText (Path.join dir name) = .error .notText ∧
      envFault? t dir name = some (.unreadable "config" (Path.join dir name) .notText)) := by
  unfold envFault? envAssignments
  cases hbytes : t.readBytes (Path.join dir name) with
  | error e =>
    have hnot : t.isFile (Path.join dir name) = false := by
      rw [← Bool.not_eq_true, FileTree.isFile_iff, hbytes]
      exact nofun
    refine .inl ⟨hnot, rfl, ?_⟩
    unfold FileTree.readText
    rw [hbytes]
    rfl
  | ok bytes =>
    have hfile : t.isFile (Path.join dir name) = true := FileTree.isFile_iff.mpr ⟨bytes, hbytes⟩
    have hread := FileTree.readText_of_bytes hbytes
    cases htext : String.fromUTF8? bytes with
    | some text =>
      rw [htext] at hread
      rw [hread]
      exact .inr (.inl ⟨text, hfile, rfl, by simp only [htext, Option.isSome_some, if_true], rfl⟩)
    | none =>
      rw [htext] at hread
      rw [hread]
      exact .inr (.inr ⟨hfile, rfl, by simp [htext]⟩)

/-- **Env files.** The first one with a fault is reported; without faults the assignments of all
files come in order. -/
theorem run_loadEnv (t : FileTree) (dir : String) (names : List String) :
    (loadEnv FileTree.host dir names).run t =
      (match names.findSome? (envFault? t dir) with
        | some d => .error d
        | none => .ok (names.flatMap (envAssignments t dir)), t) := by
  induction names with
  | nil => rfl
  | cons name names ih =>
    rw [loadEnv, FileTree.run_bind_of_run (FileTree.run_isFile t _), List.findSome?_cons,
      List.flatMap_cons]
    obtain ⟨hnot, hfault, hpairs⟩ | ⟨text, hfile, hread, hfault, hpairs⟩ | ⟨hfile, hread, hfault⟩ :=
      envFile_cases t dir name
    · rw [hnot, hfault, hpairs]
      exact ih
    · rw [hfile, if_pos rfl, FileTree.run_bind_of_run (FileTree.run_readText t _), hread, hfault,
        hpairs]
      dsimp only
      rw [FileTree.run_bind_of_run ih]
      cases names.findSome? (envFault? t dir) <;> rfl
    · rw [hfile, if_pos rfl, FileTree.run_bind_of_run (FileTree.run_readText t _), hread, hfault]
      rfl

/-! ### Definitions given by hand -/

/-- What is wrong with a definition given by hand: nothing is left of its key when it is trimmed. -/
def defineFault? (text : String) : Option Diagnostic :=
  if Text.trim (text.toList.takeWhile (· != '=')) = [] then
    some (.unplaced "config" (.invalidDefinition text))
  else none

/-- A definition has a fault, or it gives a key a value. -/
theorem define_cases (text : String) :
    (∃ d, defineFault? text = some d ∧ parseDefine text = .error d) ∨
    (∃ entry, defineFault? text = none ∧ Definitions.parseDefine? text = some entry ∧
      parseDefine text = .ok entry) := by
  unfold parseDefine Definitions.parseDefine? defineFault?
  by_cases hempty : Text.trim (text.toList.takeWhile (· != '=')) = []
  · rw [if_pos hempty]
    refine .inl ⟨_, rfl, ?_⟩
    simp only [hempty, String.ofList_nil, if_true]
  · rw [if_neg hempty]
    have hkey : String.ofList (Text.trim (text.toList.takeWhile (· != '='))) ≠ "" := by
      rwa [Ne, String.ofList_eq_empty_iff]
    exact .inr ⟨_, rfl, if_neg hkey, by simp only [if_neg hkey]⟩

/-- **Definitions given by hand.** The first one with a fault is reported; without faults they are
inserted in order. -/
theorem define_eq (definitions : Definitions) (texts : List String) :
    define definitions texts = match texts.findSome? defineFault? with
      | some d => .error d
      | none => .ok (definitions.insertAll (texts.filterMap Definitions.parseDefine?)) := by
  induction texts generalizing definitions with
  | nil => rfl
  | cons text texts ih =>
    rw [define, List.findSome?_cons]
    obtain ⟨d, hfault, hparse⟩ | ⟨entry, hfault, hentry, hparse⟩ := define_cases text
    · rw [hfault, hparse]
      rfl
    · rw [hfault, hparse, List.filterMap_cons_some hentry]
      exact ih _

/-! ### Layers -/

/-- What a list of assignments says about a key: the last one counts. -/
def lastOf {ν : Type} (pairs : List (String × ν)) (key : String) : Option ν :=
  pairs.reverse.lookup key

theorem findSome?_cons_or {α β : Type} (f : α → Option β) (a : α) (as : List α) :
    (a :: as).findSome? f = (f a).or (as.findSome? f) := by
  rw [List.findSome?_cons]
  cases f a <;> rfl

/-- Assignments one after the other are layers, the last ones the highest. -/
theorem lastOf_flatten {ν : Type} (pieces : List (List (String × ν))) (key : String) :
    lastOf pieces.flatten key = pieces.reverse.findSome? (lastOf · key) := by
  induction pieces with
  | nil => rfl
  | cons piece pieces ih =>
    calc lastOf (piece :: pieces).flatten key
        = (lastOf pieces.flatten key).or (lastOf piece key) := by
          unfold lastOf
          rw [List.flatten_cons, List.reverse_append, List.lookup_append]
      _ = (pieces.reverse.findSome? (lastOf · key)).or ([piece].findSome? (lastOf · key)) := by
          rw [ih, findSome?_cons_or, List.findSome?_nil, Option.or_none]
      _ = (piece :: pieces).reverse.findSome? (lastOf · key) := by
          rw [List.reverse_cons, List.findSome?_append]

/-- The layers of a configuration in a mode, the highest first: the definitions given by hand, the
`env` map of the options, their other keys, the environment of the process if it is asked for, and
the env files. -/
def layers (t : FileTree) (s : Settings) (o : Options) (mode : String) :
    List (List (String × Value)) :=
  [s.defines.filterMap Definitions.parseDefine?,
    o.env.map fun (key, j) => (key, j.toValue),
    o.others.map fun (key, j) => (key, j.toValue),
    if s.usesProcessEnv then textLayer s.processEnv else []] ++
  [".env." ++ mode ++ ".local", ".env." ++ mode, ".env.local", ".env"].map fun name =>
    textLayer (envAssignments t (s.envDir.getD s.root) name)

/-- What can be wrong with the settings, in the order in which it is found. -/
def faults (t : FileTree) (s : Settings) : List Diagnostic :=
  match t.options s.optionsFile with
  | .error d => [d]
  | .ok o =>
    (EnvFile.names (modeOf s o)).filterMap (envFault? t (s.envDir.getD s.root)) ++
      s.defines.filterMap defineFault?

/-- The env files of a mode are four layers, the last file the highest. -/
theorem get?_env (t : FileTree) (dir mode key : String) :
    (FinMap.ofList (textLayer ((EnvFile.names mode).flatMap (envAssignments t dir)))).get? key =
      ([".env." ++ mode ++ ".local", ".env." ++ mode, ".env.local", ".env"].map fun name =>
        textLayer (envAssignments t dir name)).findSome? (lastOf · key) := by
  have hflatten : textLayer ((EnvFile.names mode).flatMap (envAssignments t dir)) =
      ((EnvFile.names mode).map fun name => textLayer (envAssignments t dir name)).flatten := by
    unfold textLayer
    rw [List.map_flatMap, List.flatMap_def]
  rw [FinMap.get?_ofList, hflatten]
  exact lastOf_flatten _ _

/-- The definitions of options are two layers. -/
theorem get?_options (o : Options) (key : String) :
    o.definitions.get? key = (lastOf (o.env.map fun (key, j) => (key, j.toValue)) key).or
      (lastOf (o.others.map fun (key, j) => (key, j.toValue)) key) := by
  unfold Options.definitions
  rw [FinMap.get?_merge, FinMap.get?_ofList, FinMap.get?_ofList]
  rfl

/-- The environment of the process is a layer if it is asked for. -/
theorem get?_process (files : Definitions) (s : Settings) (key : String) :
    (if s.usesProcessEnv = true then files.insertAll (textLayer s.processEnv) else files).get? key =
      (lastOf (if s.usesProcessEnv = true then textLayer s.processEnv else []) key).or
        (files.get? key) := by
  cases s.usesProcessEnv with
  | false => rfl
  | true => exact FinMap.get?_insertAll _ _ _

/-- **Layering.** What is assembled has for every key the value of the highest layer with one. Each
step of the assembly lays something on top, so its layers stand in front of those of the steps
before. -/
theorem get?_assemble {t : FileTree} {s : Settings} {o : Options} {config : Config}
    (h : assemble s o ((EnvFile.names (modeOf s o)).flatMap
      (envAssignments t (s.envDir.getD s.root))) = .ok config) :
    config.mode = modeOf s o ∧ ∀ key,
      config.definitions.get? key = (layers t s o (modeOf s o)).findSome? (lastOf · key) := by
  unfold assemble at h
  simp only [define_eq] at h
  cases hfault : s.defines.findSome? defineFault? with
  | some d =>
    rw [hfault] at h
    cases h
  | none =>
    rw [hfault] at h
    obtain rfl := Except.ok.inj h
    refine ⟨rfl, fun key => ?_⟩
    show (FinMap.insertAll _ _).get? key = _
    unfold layers
    rw [FinMap.get?_insertAll, FinMap.get?_merge, get?_process, get?_options, get?_env,
      List.findSome?_append]
    simp only [findSome?_cons_or, List.findSome?_nil, Option.or_none, Option.or_assoc, lastOf]

theorem error_eq_error_iff {α : Type} {d d' : Diagnostic} :
    (.error d' : Except Diagnostic α) = .error d ↔ some d' = some d := by
  rw [Except.error.injEq, Option.some.injEq]

/-- Assembling fails if a definition given by hand has a fault. -/
theorem assemble_eq_error_iff {s : Settings} {o : Options} {env : List (String × String)}
    {d : Diagnostic} :
    assemble s o env = .error d ↔ (s.defines.filterMap defineFault?).head? = some d := by
  unfold assemble
  simp only [define_eq]
  rw [List.head?_filterMap]
  cases s.defines.findSome? defineFault? with
  | some d' => exact error_eq_error_iff
  | none => exact ⟨nofun, nofun⟩

/-! ### Building -/

/-- Building on a tree, which stays as it is. -/
theorem run_build (t : FileTree) (s : Settings) :
    (build FileTree.host s).run t =
      (match t.options s.optionsFile with
        | .error d => .error d
        | .ok o =>
          match (EnvFile.names (modeOf s o)).findSome? (envFault? t (s.envDir.getD s.root)) with
          | some d => .error d
          | none =>
            assemble s o
              ((EnvFile.names (modeOf s o)).flatMap (envAssignments t (s.envDir.getD s.root))),
        t) := by
  unfold build
  rw [FileTree.run_bind_of_run (Options.run_load? t s.optionsFile)]
  cases t.options s.optionsFile with
  | error d => rfl
  | ok o =>
    dsimp only
    rw [FileTree.run_bind_of_run (run_loadEnv t _ _)]
    cases (EnvFile.names (modeOf s o)).findSome? (envFault? t (s.envDir.getD s.root)) <;> rfl

/-- The first fault is what building fails with. -/
theorem build_eq_error_iff {t : FileTree} {s : Settings} {d : Diagnostic} :
    ((build FileTree.host s).run t).1 = .error d ↔ (faults t s).head? = some d := by
  rw [run_build]
  unfold faults
  cases t.options s.optionsFile with
  | error e => exact error_eq_error_iff
  | ok o =>
    dsimp only
    rw [List.head?_append, List.head?_filterMap]
    cases (EnvFile.names (modeOf s o)).findSome? (envFault? t (s.envDir.getD s.root)) with
    | some e => exact error_eq_error_iff
    | none => exact assemble_eq_error_iff

/-- A configuration is assembled from options and env files without faults. -/
theorem exists_assemble_of_build {t : FileTree} {s : Settings} {config : Config}
    (h : ((build FileTree.host s).run t).1 = .ok config) :
    ∃ o, t.options s.optionsFile = .ok o ∧ assemble s o ((EnvFile.names (modeOf s o)).flatMap
      (envAssignments t (s.envDir.getD s.root))) = .ok config := by
  rw [run_build] at h
  cases hoptions : t.options s.optionsFile with
  | error e =>
    rw [hoptions] at h
    cases h
  | ok o =>
    rw [hoptions] at h
    dsimp only at h
    split at h
    · cases h
    · exact ⟨o, rfl, h⟩

/-- The keys of options that come from a file. -/
theorem keys_of_options {t : FileTree} {path : String} {o : Options}
    (h : t.options (some path) = .ok o) :
    ∃ text keys, t.readText path = .ok text ∧ Options.documentKeys? path text = some keys ∧
      o.others.map Prod.fst = Options.freeKeys keys := by
  unfold FileTree.options at h
  dsimp only at h
  cases htext : t.readText path with
  | error e =>
    rw [htext] at h
    cases h
  | ok text =>
    rw [htext] at h
    obtain ⟨keys, hkeys, hothers⟩ := Options.keys_of_ofText h
    exact ⟨text, keys, rfl, hkeys, hothers⟩

/-- **Layers of a configuration.** Building leaves the tree as it is. It fails exactly if the
settings have a fault, and then with the first one. Otherwise the mode is the one asked for, else
that of the options, else that of the environment, else the default one, and a key has a value
exactly if some layer has one, which is then that of the highest such layer. The keys of the options
besides their `env` map are those at the top of their file that have no meaning of their own. -/
theorem build_layers (t : FileTree) (s : Settings) :
    ∃ result, (build FileTree.host s).run t = (result, t) ∧
      (∀ d, result = .error d ↔ (faults t s).head? = some d) ∧
      ∀ config, result = .ok config →
        ∃ o, t.options s.optionsFile = .ok o ∧
          (∀ path, s.optionsFile = some path → ∃ text keys, t.readText path = .ok text ∧
            Options.documentKeys? path text = some keys ∧
            o.others.map Prod.fst = Options.freeKeys keys) ∧
          config.mode =
            ((s.mode.or o.mode).or (lastOf s.processEnv "NODE_ENV")).getD "development" ∧
          ∀ key,
            config.definitions.get? key = (layers t s o config.mode).findSome? (lastOf · key) ∧
            ((config.definitions.get? key).isSome ↔
              ∃ layer ∈ layers t s o config.mode, (lastOf layer key).isSome) := by
  refine ⟨((build FileTree.host s).run t).1, ?_, fun d => build_eq_error_iff,
    fun config hconfig => ?_⟩
  · rw [run_build]
  · obtain ⟨o, hoptions, hassemble⟩ := exists_assemble_of_build hconfig
    obtain ⟨hmode, hlayers⟩ := get?_assemble hassemble
    refine ⟨o, hoptions, ?_, ?_, fun key => ?_⟩
    · intro path hpath
      rw [hpath] at hoptions
      exact keys_of_options hoptions
    · rw [hmode, modeOf, FinMap.get?_ofList]
      rfl
    · rw [hmode, hlayers]
      exact ⟨rfl, List.findSome?_isSome_iff⟩

/-- A tree with two env files and an options file, which sets the mode, keys of its own and keys in
its `env` map. -/
def layeredTree : FileTree := .ofEntries [
  ([".env"], .file "A=1\nB=1\nP=1\n".toUTF8),
  ([".env.test"], .file "B=2\nC=2\n".toUTF8),
  (["o.json"], .file ("\x7b\"mode\":\"test\",\"C\":true,\"E\":\"x\",\"F\":[false],".toUTF8 ++
    "\"env\":\x7b\"E\":\"y\",\"G\":1,\"D\":null\x7d\x7d".toUTF8))]

/-- Settings with the environment of the process and definitions given by hand. -/
def layeredSettings : Settings where
  optionsFile := some "o.json"
  usesProcessEnv := true
  processEnv := [("P", "p"), ("C", "p"), ("E", "p")]
  defines := ["D=d", " D = e"]

/-- The theorem at settings with a key in every layer, and with keys in several of them. -/
theorem build_layers_stacked :
    ∃ config o, (build FileTree.host layeredSettings).run layeredTree = (.ok config, layeredTree) ∧
      config.mode = "test" ∧
      ["A", "B", "P", "C", "E", "F", "G", "D", "mode"].map config.definitions.get? =
        [some (.string "1"), some (.string "2"), some (.string "p"), some (.bool true),
          some (.string "y"), some (.string "[false]"), some (.number .one), some (.string " e"),
          none] ∧
      ∀ key, config.definitions.get? key =
        (layers layeredTree layeredSettings o "test").findSome? (lastOf · key) := by
  have hfaults : faults layeredTree layeredSettings = [] := by decide +kernel
  have hvalues : ((build FileTree.host layeredSettings).run layeredTree).1.toOption.map
      (fun config => (config.mode,
        ["A", "B", "P", "C", "E", "F", "G", "D", "mode"].map config.definitions.get?)) =
      some ("test",
        [some (.string "1"), some (.string "2"), some (.string "p"), some (.bool true),
          some (.string "y"), some (.string "[false]"), some (.number .one), some (.string " e"),
          none]) := by
    decide +kernel
  obtain ⟨result, hrun, herror, hok⟩ := build_layers layeredTree layeredSettings
  rw [hrun] at hvalues
  cases result with
  | error d =>
    -- without a fault there is no error
    have hd := (herror d).mp rfl
    rw [hfaults] at hd
    cases hd
  | ok config =>
    obtain ⟨o, -, -, -, hlayers⟩ := hok config rfl
    obtain ⟨hmode, hkeys⟩ := Prod.mk.inj (Option.some.inj hvalues)
    refine ⟨config, o, hrun, hmode, hkeys, fun key => ?_⟩
    rw [← hmode]
    exact (hlayers key).1

end Config

end CondRegions

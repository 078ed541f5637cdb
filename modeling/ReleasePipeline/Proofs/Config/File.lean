import ReleasePipeline.Config.Export
import ReleasePipeline.Config.File
import ReleasePipeline.Proofs.Config.Shape
import ReleasePipeline.Proofs.Files.Tree
import ReleasePipeline.Proofs.Json.Document
import ReleasePipeline.Proofs.Text.Line

/-! Configurations survive being exported and loaded again. -/
namespace ReleasePipeline

namespace ReleaseConfig

variable {c : ReleaseConfig} {files files' : FileTree} {here : Place} {path : Path}

/-- The configuration without the labels of what its options share. -/
def unlabelled (c : ReleaseConfig) : ReleaseConfig :=
  { c with
    plugins := c.plugins.map fun p => { p with options := Value.unlabelledEntries p.options } }

/-- JSON has a form for every option. -/
def Jsonable (c : ReleaseConfig) : Prop := ∀ p ∈ c.plugins, (Value.table p.options).Jsonable

section Values

theorem unlabelled_branch (m : BranchMatcher) : m.toValue.unlabelled = m.toValue := by
  obtain ⟨name, kind⟩ := m
  cases kind <;> rfl

theorem unlabelled_plugin (p : PluginInvocation) : p.toValue.unlabelled =
    PluginInvocation.toValue { p with options := Value.unlabelledEntries p.options } := by
  obtain ⟨name, options⟩ := p
  cases options with
  | nil => rfl
  | cons entry options => rfl

theorem unlabelled_toValue (c : ReleaseConfig) : c.toValue.unlabelled = c.unlabelled.toValue := by
  have hbranches : (Value.list (c.branches.map BranchMatcher.toValue)).unlabelled =
      .list (c.branches.map BranchMatcher.toValue) := by
    rw [Value.unlabelled, Value.unlabelledItems_eq_map, List.map_map]
    exact congrArg _ (List.map_congr_left fun m _ => unlabelled_branch m)
  have hplugins : (Value.list (c.plugins.map PluginInvocation.toValue)).unlabelled =
      .list (c.unlabelled.plugins.map PluginInvocation.toValue) := by
    rw [Value.unlabelled, Value.unlabelledItems_eq_map, unlabelled, List.map_map, List.map_map]
    exact congrArg _ (List.map_congr_left fun p _ => unlabelled_plugin p)
  have hstring (s : String) : (Value.string s).unlabelled = .string s := rfl
  have hformat : c.unlabelled.tagFormat = c.tagFormat := rfl
  rw [toValue, toValue, toTable, toTable, Value.unlabelled, Table.unlabelledEntries_ofNames, hformat]
  by_cases h : c.tagFormat = defaultTagFormat
  · simp [h, hbranches, hplugins, unlabelled]
  · simp [h, hbranches, hplugins, hstring, unlabelled]

theorem wellFormed_unlabelled (h : c.WellFormed) : c.unlabelled.WellFormed where
  branches := h.branches
  matchers := h.matchers
  plugins := by simpa [unlabelled] using h.plugins
  names p hp := by
    obtain ⟨q, hq, rfl⟩ := List.mem_map.mp hp
    exact h.names q hq
  mark := h.mark

theorem jsonable_branch (m : BranchMatcher) : m.toValue.Jsonable := by
  rw [BranchMatcher.toValue]
  split
  · exact .string m.name
  · have hkind : (BranchMatcher.kindValue m.kind).Jsonable := by
      cases m.kind with
      | stable => exact .bool false
      | ownChannel => exact .bool true
      | channel name => exact .string name
    refine .table _ (by simp) fun e he => ?_
    simp only [List.mem_cons, List.not_mem_nil, or_false] at he
    obtain rfl | rfl := he
    · exact .string m.name
    · exact hkind

theorem jsonable_plugin {p : PluginInvocation} (h : (Value.table p.options).Jsonable) :
    p.toValue.Jsonable := by
  rw [PluginInvocation.toValue]
  split
  · exact .string p.name
  · refine .list _ fun v hv => ?_
    simp only [List.mem_cons, List.not_mem_nil, or_false] at hv
    obtain rfl | rfl := hv
    · exact .string p.name
    · exact h

theorem jsonable_toValue (h : c.Jsonable) : c.toValue.Jsonable := by
  have hbranches : (Value.list (c.branches.map BranchMatcher.toValue)).Jsonable := by
    refine .list _ fun v hv => ?_
    obtain ⟨m, -, rfl⟩ := List.mem_map.mp hv
    exact jsonable_branch m
  have hplugins : (Value.list (c.plugins.map PluginInvocation.toValue)).Jsonable := by
    refine .list _ fun v hv => ?_
    obtain ⟨p, hp, rfl⟩ := List.mem_map.mp hv
    exact jsonable_plugin (h p hp)
  refine .table _ ?_ fun e he => ?_
  · by_cases hformat : c.tagFormat = defaultTagFormat
    · simp [hformat]
    · simp [hformat]
  · rcases List.mem_append.mp he with he | he
    · simp only [List.mem_cons, List.not_mem_nil, or_false] at he
      obtain rfl | rfl := he
      · exact hbranches
      · exact hplugins
    · split at he
      · cases he
      · rw [List.mem_singleton.mp he]
        exact .string c.tagFormat

end Values

section Files

/-- A configuration whose options JSON has forms for has a text that is read as its value. -/
theorem exists_json (h : c.Jsonable) : ∃ text, c.exported "json" = .ok text ∧
    '\r' ∉ text.toList ∧ Json.read text = .ok c.unlabelled.toValue := by
  obtain ⟨cs, hcs, hreads⟩ := Json.exists_chars (jsonable_toValue h) 0
  have hmark : cs.head? ≠ some '\ufeff' := by
    rw [toValue, Json.chars, bind_eq_ok] at hcs
    obtain ⟨parts, -, hblock⟩ := hcs
    cases hblock
    have hbrace : (Json.block '\x7b' '\x7d' 0 parts).head? = some '\x7b' := by
      cases parts with
      | nil => rfl
      | cons part parts => rfl
    rw [hbrace]
    decide
  have hwrite : Json.write c.toValue = .ok (String.ofList cs) := by
    rw [Json.write, hcs]
    rfl
  refine ⟨String.ofList cs ++ "\n", ?_, ?_, ?_⟩
  · rw [exported, if_pos rfl, json, hwrite]
    rfl
  · have hreturn := hreads.noReturn
    simp [hreturn]
  · rw [← unlabelled_toValue]
    exact Json.read_of_reads hreads hmark

theorem textOfBytes_toUTF8 {text : String} (h : '\r' ∉ text.toList) :
    textOfBytes text.toUTF8 = .ok text := by
  rw [textOfBytes, bind_eq_ok]
  refine ⟨text, Text.decodeUtf8_toUTF8 text, ?_⟩
  rw [Text.unifyNewlines_eq_self h, String.ofList_toList]
  rfl

/-- A written file whose text is read as a value is loaded as the configuration of the value. -/
theorem load_of_write {text : String} {v : Value}
    (hjson : ConfigFormat.ofExtension? path.extension = some .json) (hreturn : '\r' ∉ text.toList)
    (hread : Json.read text = .ok v) (hconfig : ofValue v = .ok c)
    (hwrite : files.write here path text.toUTF8 = .ok files') :
    load files' here path = .ok c := by
  have htext : readText path text = .ok v := by
    delta readText
    simp only [hjson, hread, Except.mapError]
  rw [load, FileTree.isFile_of_write hwrite, FileTree.read_of_write hwrite]
  simp only [textOfBytes_toUTF8 hreturn, Except.mapError, bind, Except.bind, htext, hconfig, if_true]

/-- The value of an accepted configuration is accepted as the same configuration. Its JSON text,
written into a file whose name ends in `.json`, is loaded as the configuration, but for the labels of
what its options share. -/
theorem accepted_config_round_trips :
    (∀ v c, ofValue v = .ok c → ofValue c.toValue = .ok c) ∧
    (∀ v c, ofValue v = .ok c → c.Jsonable → ∃ text, c.exported "json" = .ok text ∧
      ∀ files here path files', ConfigFormat.ofExtension? path.extension = some .json →
        FileTree.write files here path text.toUTF8 = .ok files' →
        load files' here path = .ok c.unlabelled) := by
  constructor
  · intro v c h
    exact ofValue_toValue (wellFormed_of_ofValue h)
  · intro v c h hoptions
    obtain ⟨text, hexport, hreturn, hread⟩ := exists_json hoptions
    refine ⟨text, hexport, fun files here path files' hjson hwrite => ?_⟩
    have hconfig : ofValue c.unlabelled.toValue = .ok c.unlabelled :=
      ofValue_toValue (wellFormed_unlabelled (wellFormed_of_ofValue h))
    exact load_of_write hjson hreturn hread hconfig hwrite

/-- Options of several kinds, some of them empty or with characters that JSON escapes. -/
def nestedOptions : Table := Table.ofNames
  [("publishCmd", .string "echo \"done\"\n\x1b"), ("retries", .int (-3)), ("quiet", .bool true),
   ("targets", .list [.string "linux", .null, .list []]),
   ("limits", .table (Table.ofNames [("minutes", .int 20), ("extra", .table [])]))]

/-- The value of a configuration with such options. -/
def nestedValue : Value := .table (Table.ofNames
  [("branches", .list [.string "main", .table (Table.ofNames
      [("name", .string "next"), ("prerelease", .bool true)])]),
   ("plugins", .list [.string "commit-analyzer", .list [.string "exec", .table nestedOptions]])])

/-- A configuration with such options. -/
def nestedConfig : ReleaseConfig where
  branches := [{ name := "main" }, { name := "next", kind := .ownChannel }]
  plugins := [⟨"commit-analyzer", []⟩, ⟨"exec", nestedOptions⟩]

theorem jsonable_nestedConfig : nestedConfig.Jsonable := by
  have hstrings (vs : List Value) (h : ∀ v ∈ vs, v.Jsonable) : (Value.list vs).Jsonable := .list vs h
  have hempty : (Value.table []).Jsonable := .table [] List.nodup_nil nofun
  have hlimits : (Value.table (Table.ofNames
      [("minutes", .int 20), ("extra", .table [])])).Jsonable := by
    refine .table _ (by decide) ?_
    simpa using ⟨.int 20 (by decide +kernel), hempty⟩
  have htargets : (Value.list [.string "linux", .null, .list []]).Jsonable := by
    refine .list _ ?_
    simpa using ⟨.string "linux", .null, .list [] nofun⟩
  intro p hp
  simp only [nestedConfig, List.mem_cons, List.not_mem_nil, or_false] at hp
  obtain rfl | rfl := hp
  · exact hempty
  · refine .table _ (by decide) ?_
    simpa using ⟨.string _, .int (-3) (by decide +kernel), .bool true, htargets, hlimits⟩

/-- The configuration is read of its own value, and of the file that it is exported to. -/
theorem round_trip_of_nestedConfig :
    ofValue nestedValue = .ok nestedConfig ∧ ofValue nestedConfig.toValue = .ok nestedConfig ∧
    ∃ text, nestedConfig.exported "json" = .ok text ∧
      load ⟨[(["release.json"], .file text.toUTF8)]⟩ [] (.ofText "release.json") =
        .ok nestedConfig := by
  have hvalue : ofValue nestedValue = .ok nestedConfig := by rfl
  refine ⟨hvalue, accepted_config_round_trips.1 nestedValue nestedConfig hvalue, ?_⟩
  obtain ⟨text, hexport, hload⟩ :=
    accepted_config_round_trips.2 nestedValue nestedConfig hvalue jsonable_nestedConfig
  exact ⟨text, hexport, hload {} [] (.ofText "release.json") _ rfl rfl⟩

end Files

end ReleaseConfig

end ReleasePipeline

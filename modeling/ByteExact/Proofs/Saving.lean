import ByteExact.Config.File
import ByteExact.Proofs.Backend
/-!
# Saving and loading

Whatever reads and prints TOML, a configuration is printed as two plain statements, so that the
reader finds in them the entries that went in. An integer of the format has 63 bits and a sign: a
configuration with a larger size is not written at all, and its file keeps what it had.

Results:
* `exists_toToml`: the document of a configuration, as statements.
* `ofToml_render`, `ofToml_withoutKey`: what documents of plain statements configure.
* `load_save`: what was saved is loaded, and a setting whose line is gone has its standard value.
-/
namespace ByteExact.Config

open Toml

/-! ## The entries of a configuration -/

theorem orderOfKeyword?_name (order : ByteOrder) : orderOfKeyword? order.name = some order := by
  cases order <;> decide

theorem byteOrder?_cons (order : ByteOrder) (entries : Entries) :
    byteOrder? ((byteOrderKey, .text order.name) :: entries) = some order := by
  simp [byteOrder?, orderOfKeyword?_name]

theorem maxValueSize?_cons (n : Nat) (entries : Entries) :
    maxValueSize? ((maxValueSizeKey, .integer n) :: entries) = some n := by
  simp [maxValueSize?]

/-- The entry of a setting says nothing about the other one. -/
theorem byteOrder?_skip (node : Node) (entries : Entries) :
    byteOrder? ((maxValueSizeKey, node) :: entries) = byteOrder? entries := by
  have hkey : (byteOrderKey == maxValueSizeKey) = false := by decide
  rw [byteOrder?, byteOrder?, List.lookup_cons, hkey]

theorem maxValueSize?_skip (node : Node) (entries : Entries) :
    maxValueSize? ((byteOrderKey, node) :: entries) = maxValueSize? entries := by
  have hkey : (maxValueSizeKey == byteOrderKey) = false := by decide
  rw [maxValueSize?, maxValueSize?, List.lookup_cons, hkey]

theorem ofEntries?_entries (config : Config) : ofEntries? config.entries = some config := by
  rw [entries, ofEntries?, byteOrder?_cons, maxValueSize?_skip, maxValueSize?_cons]
  rfl

/-- Without its order a configuration has the standard one. -/
theorem ofEntries?_maxValueSize (n : Nat) :
    ofEntries? [(maxValueSizeKey, .integer n)] = some { standard with maxValueSize := n } := by
  rw [ofEntries?, byteOrder?_skip, maxValueSize?_cons]
  rfl

/-- Without its size a configuration has the standard one. -/
theorem ofEntries?_byteOrder (order : ByteOrder) :
    ofEntries? [(byteOrderKey, .text order.name)] = some { standard with byteOrder := order } := by
  rw [ofEntries?, byteOrder?_cons, maxValueSize?_skip]
  rfl

theorem nodup_keys (config : Config) : (config.entries.map Prod.fst).Nodup := by
  show [byteOrderKey, maxValueSizeKey].Nodup
  decide

/-! ## Its document -/

/-- The statement that gives the byte order. -/
def byteOrderStatement (order : ByteOrder) : Statement where
  key := byteOrderKey
  spelling := '"' :: order.name.toList ++ ['"']
  node := .text order.name
  key_ne_nil := by decide
  all_isBare := by decide
  spells := .basic order.name (by cases order <;> decide) (by cases order <;> decide)

/-- The statement that gives the largest value size. -/
def maxValueSizeStatement (n : Nat) (fits : n < 9223372036854775808) : Statement where
  key := maxValueSizeKey
  spelling := Nat.toDigits 10 n
  node := .integer n
  key_ne_nil := by decide
  all_isBare := by decide
  spells := .decimal n fits

variable {toml : Backend}

/-- A configuration whose size the format has an integer for is printed as plain statements. -/
theorem exists_toToml (htoml : toml.FollowsToml) (config : Config)
    (fits : config.maxValueSize < 9223372036854775808) :
    ∃ stmts : List Statement, stmts.map Statement.entry = config.entries ∧
      config.toToml toml = .ok (Statement.render stmts) := by
  have hplain : ∀ entry ∈ config.entries, ∃ stmt : Statement, stmt.entry = entry := by
    rw [entries, List.forall_mem_cons, List.forall_mem_singleton]
    exact ⟨⟨byteOrderStatement config.byteOrder, rfl⟩,
      ⟨maxValueSizeStatement config.maxValueSize fits, rfl⟩⟩
  obtain ⟨stmts, hentries, hprint⟩ := htoml.print?_plain config.entries config.nodup_keys hplain
  refine ⟨stmts, hentries, ?_⟩
  rw [toToml, hprint]

theorem toToml_of_large (htoml : toml.FollowsToml) (config : Config)
    (large : 9223372036854775808 ≤ config.maxValueSize) :
    config.toToml toml = .error (.config .cannotSerialize) := by
  have hmem : (maxValueSizeKey, .integer config.maxValueSize) ∈ config.entries := by
    simp [entries]
  have hprint := htoml.print?_large config.entries _ _ hmem (by omega)
  rw [toToml, hprint]

/-! ## Reading it back -/

theorem ofToml_render (htoml : toml.FollowsToml) {stmts : List Statement} {entries : Entries}
    (hentries : stmts.map Statement.entry = entries) (hkeys : (entries.map Prod.fst).Nodup)
    {config : Config} (h : ofEntries? entries = some config) :
    ofToml toml (Statement.render stmts) = .ok config := by
  subst hentries
  rw [Statement.map_fst_entry] at hkeys
  rw [ofToml, htoml.read?_render stmts hkeys, Option.bind_some, h]

/-- To take the lines of a key out of a document is to take the key out of its entries. -/
theorem ofToml_withoutKey (htoml : toml.FollowsToml) {stmts : List Statement} {entries : Entries}
    (hentries : stmts.map Statement.entry = entries) (hkeys : (entries.map Prod.fst).Nodup)
    {key : String} (hkey : key ≠ "") {config : Config}
    (h : ofEntries? (entries.filter fun entry => entry.1 != key) = some config) :
    ofToml toml (Statement.withoutKey key (Statement.render stmts)) = .ok config := by
  have hleft : (stmts.filter fun stmt => stmt.key != key).map Statement.entry =
      entries.filter fun entry => entry.1 != key := by
    rw [← hentries, List.filter_map]
    rfl
  have hfewer : ((entries.filter fun entry => entry.1 != key).map Prod.fst).Nodup :=
    hkeys.sublist (List.filter_sublist.map Prod.fst)
  rw [Statement.withoutKey_render hkey]
  exact ofToml_render htoml hleft hfewer h

theorem filter_byteOrderKey (config : Config) :
    (config.entries.filter fun entry => entry.1 != byteOrderKey) =
      [(maxValueSizeKey, .integer config.maxValueSize)] := by
  have hother : (maxValueSizeKey != byteOrderKey) = true := by decide
  simp [entries, hother]

theorem filter_maxValueSizeKey (config : Config) :
    (config.entries.filter fun entry => entry.1 != maxValueSizeKey) =
      [(byteOrderKey, .text config.byteOrder.name)] := by
  have hother : (byteOrderKey != maxValueSizeKey) = true := by decide
  simp [entries, hother]

/-! ## Files -/

theorem load_file (toml : Backend) (text : String) :
    load toml (.file text.toUTF8) = ofToml toml text := by
  have htext : String.fromUTF8? text.toUTF8 = some text := Place.text?_file text
  rw [load, htext]

theorem save_of_toToml {config : Config} {text : String} (htext : config.toToml toml = .ok text)
    {place : Place} (hplace : place = .vacant ∨ ∃ content, place = .file content) :
    config.save toml place = .done () (.file text.toUTF8) := by
  rw [save, htext, Attempt.guarded_ok]
  rcases hplace with rfl | ⟨content, rfl⟩ <;> rfl

/-- **Saving, loading and defaults.** Whatever reads and prints TOML, as long as it follows the
format: a configuration whose size has 63 bits has a document, which saving puts in place of
whatever the file had, and reading it gives the configuration back. A document without one of the
two lines has the standard value for it and keeps the other setting. A configuration with a larger
size is not saved, and what stands at the path stays. -/
theorem load_save (toml : Backend) (htoml : toml.FollowsToml) (config : Config) :
    (config.maxValueSize < 9223372036854775808 →
      ∃ text, config.toToml toml = .ok text ∧ ofToml toml text = .ok config ∧
        (∀ place, (place = .vacant ∨ ∃ content, place = .file content) →
          config.save toml place = .done () (.file text.toUTF8) ∧
            load toml (config.save toml place).state = .ok config) ∧
        ofToml toml (Statement.withoutKey byteOrderKey text) =
          .ok { config with byteOrder := standard.byteOrder } ∧
        ofToml toml (Statement.withoutKey maxValueSizeKey text) =
          .ok { config with maxValueSize := standard.maxValueSize }) ∧
    (9223372036854775808 ≤ config.maxValueSize →
      ∀ place, config.save toml place = .fail (.config .cannotSerialize) place) := by
  have hkeys := config.nodup_keys
  constructor
  · intro fits
    obtain ⟨stmts, hentries, htext⟩ := exists_toToml htoml config fits
    have hread := ofToml_render htoml hentries hkeys config.ofEntries?_entries
    refine ⟨_, htext, hread, ?_, ?_, ?_⟩
    · intro place hplace
      have hsave := save_of_toToml htext hplace
      refine ⟨hsave, ?_⟩
      rw [hsave]
      exact (load_file toml _).trans hread
    · apply ofToml_withoutKey htoml hentries hkeys (by decide)
      rw [filter_byteOrderKey, ofEntries?_maxValueSize]
    · apply ofToml_withoutKey htoml hentries hkeys (by decide)
      rw [filter_maxValueSizeKey, ofEntries?_byteOrder]
  · intro large place
    rw [save, toToml_of_large htoml config large, Attempt.guarded_error]

theorem load_save_kept_and_refused :
    (∃ text, toToml .standard ⟨.little, 0⟩ = .ok text ∧
      ofToml .standard text = .ok ⟨.little, 0⟩ ∧
      save .standard ⟨.little, 0⟩ (.file "byte_order = 1".toUTF8) =
        .done () (.file text.toUTF8) ∧
      ofToml .standard (Statement.withoutKey byteOrderKey text) = .ok ⟨.big, 0⟩) ∧
    save .standard ⟨.little, 9223372036854775808⟩ (.file "byte_order = 1".toUTF8) =
      .fail (.config .cannotSerialize) (.file "byte_order = 1".toUTF8) := by
  have htoml := Backend.followsToml_standard
  constructor
  · obtain ⟨text, htext, hread, hsave, horder, -⟩ :=
      (load_save .standard htoml ⟨.little, 0⟩).1 (by decide)
    exact ⟨text, htext, hread, (hsave _ (.inr ⟨_, rfl⟩)).1, horder⟩
  · exact (load_save .standard htoml ⟨.little, 9223372036854775808⟩).2 (Nat.le_refl _) _

end ByteExact.Config

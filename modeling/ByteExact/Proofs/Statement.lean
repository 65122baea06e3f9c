import ByteExact.Toml.Backend
/-!
# Plain statements

A document of plain statements is its lines: each begins with its key, and nothing in it ends a line
before the next one. So what happens to the lines of the text happens to the statements.

Results:
* `withoutKey_render`: to take a key's lines out is to leave its statements out.
-/
namespace ByteExact.Toml

theorem isDigit_toDigits (n : Nat) : ∀ c ∈ Nat.toDigits 10 n, c.isDigit = true :=
  fun _ => Nat.isDigit_of_mem_toDigits (by decide) (by decide)

/-- A text of characters of a class holds none from outside of it. -/
theorem not_mem_of_all {p : Char → Bool} {text : List Char} (h : text.all p = true) {c : Char}
    (hc : p c = false) : c ∉ text := by
  intro hmem
  have hin := List.all_eq_true.1 h c hmem
  rw [hc] at hin
  cases hin

theorem Spells.newline_not_mem {spelling : List Char} {node : Node} (h : Spells spelling node) :
    '\n' ∉ spelling := by
  cases h with
  | basic value _ hall =>
    have hvalue : '\n' ∉ value.toList := not_mem_of_all hall (by decide)
    simp [hvalue]
  | literal value _ hall =>
    have hvalue : '\n' ∉ value.toList := not_mem_of_all hall (by decide)
    simp [hvalue]
  | decimal n _ =>
    intro hmem
    exact absurd (isDigit_toDigits n _ hmem) (by decide)

namespace Statement

theorem isBare_of_mem (stmt : Statement) : ∀ c ∈ stmt.key.toList, isBare c = true :=
  List.all_eq_true.1 stmt.all_isBare

theorem map_fst_entry (stmts : List Statement) :
    (stmts.map entry).map Prod.fst = stmts.map key := by
  rw [List.map_map]
  rfl

theorem toList_render_nil : (render []).toList = [] := rfl

theorem toList_render_cons (stmt : Statement) (stmts : List Statement) :
    (render (stmt :: stmts)).toList = stmt.line ++ '\n' :: (render stmts).toList := by
  simp [render]

theorem toList_render (stmts : List Statement) :
    (render stmts).toList = ['\n'].intercalate (stmts.map line ++ [[]]) := by
  induction stmts with
  | nil => rfl
  | cons stmt stmts ih =>
    rw [toList_render_cons, ih]
    cases stmts <;> simp [List.intercalate_cons_cons]

/-- What is left of a text without the lines that a key begins. -/
def withoutKey (key text : String) : String :=
  String.ofList (['\n'].intercalate
    ((text.toList.splitOn '\n').filter fun line => line.takeWhile isBare != key.toList))

theorem takeWhile_line (stmt : Statement) : stmt.line.takeWhile isBare = stmt.key.toList := by
  have hblank : isBare ' ' = false := by decide
  rw [line, List.append_assoc, List.takeWhile_append_of_pos stmt.isBare_of_mem]
  simp [hblank]

theorem newline_not_mem_line (stmt : Statement) : '\n' ∉ stmt.line := by
  have hkey : '\n' ∉ stmt.key.toList := not_mem_of_all stmt.all_isBare (by decide)
  simp [line, hkey, stmt.spells.newline_not_mem]

theorem splitOn_render (stmts : List Statement) :
    (render stmts).toList.splitOn '\n' = stmts.map line ++ [[]] := by
  have hlines : ∀ l ∈ stmts.map line ++ [[]], '\n' ∉ l := by
    intro l hl
    rcases List.mem_append.1 hl with hl | hl
    · obtain ⟨stmt, -, rfl⟩ := List.mem_map.1 hl
      exact stmt.newline_not_mem_line
    · rw [List.mem_singleton.1 hl]
      exact List.not_mem_nil
  rw [toList_render, List.splitOn_intercalate _ hlines (by simp)]

/-- **To leave out the lines of a key is to leave out its statements.** -/
theorem withoutKey_render {key : String} (hkey : key ≠ "") (stmts : List Statement) :
    withoutKey key (render stmts) = render (stmts.filter fun stmt => stmt.key != key) := by
  have hlines : (stmts.map line).filter (fun line => line.takeWhile isBare != key.toList) =
      (stmts.filter fun stmt => stmt.key != key).map line := by
    rw [List.filter_map]
    congr 1
    apply List.filter_congr
    intro stmt _
    have hsame : (stmt.key.toList == key.toList) = (stmt.key == key) := by
      rw [Bool.eq_iff_iff, beq_iff_eq, beq_iff_eq, String.toList_inj]
    rw [Function.comp_apply, takeWhile_line, bne, bne, hsame]
  have hend : [[]].filter (fun line : List Char => line.takeWhile isBare != key.toList) = [[]] := by
    simp [hkey]
  rw [withoutKey, splitOn_render, List.filter_append, hlines, hend, ← toList_render,
    String.ofList_toList]

end Statement

end ByteExact.Toml

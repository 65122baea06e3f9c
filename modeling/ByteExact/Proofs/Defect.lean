import ByteExact.Proofs.Admissible
import ByteExact.Proofs.Shape
/-!
# Defects

A defect is a part that has no encoding, whatever the value: a type without a fixed width, a
reference that leads to another one, a blank field whose width varies. The static width of a layout
and the size of a value are two walks that stop at the first defect and name it. Sizing walks over
the value where it can and over the layout where it must, as for the elements of an empty run, and
still comes across the same defect first.

Results:
* `inspection_staticWidth`, `inspection_size`: what the two walks can answer.
* `defects_of_staticWidth`, `defects_of_size`: a width or a size is only reported if there is no
  defect.
* `machine_of_unsupported`: what has no fixed width in a schema is an integer of machine width.
-/
namespace ByteExact

/-- A part that has no encoding. -/
inductive Defect
  /-- A type without a fixed width, by its name. -/
  | unsupported (name : String)
  /-- A reference whose target is a reference. -/
  | chain (target : Layout)
  /-- A blank field whose width varies. -/
  | variableBlank (layout : Layout)

/-- Whether a refusal with this text is one of the defect. A chain is named by its target, for which
layouts and values have names of their own. -/
def Defect.NamedBy (text : String) : Defect → Prop
  | unsupported name => text = name
  | chain _ => ∃ target, text = "&" ++ target
  | variableBlank layout => text = "blank " ++ layout.shown

namespace Layout

def chainDefects (target : Layout) : List Defect :=
  if target.isPointer then [.chain target] else []

def blankDefects (label : Option String) (layout : Layout) : List Defect :=
  if label.isNone && !layout.isFixed then [.variableBlank layout] else []

mutual

/-- The defects in the order of declaration. A chain stands ahead of what is found in its target, a
blank field behind what is found in its layout. -/
def defects : Layout → List Defect
  | scalar _ | complex _ => []
  | array element _ => element.defects
  | slice element => element.defects
  | record _ fields => fields.defects
  | pointer target => chainDefects target ++ target.defects
  | unsupported name => [.unsupported name]

def Fields.defects : Fields → List Defect
  | .nil => []
  | .cons label layout rest => layout.defects ++ (blankDefects label layout ++ rest.defects)

end

theorem defects_pointer_eq_nil_iff {target : Layout} :
    (pointer target).defects = [] ↔ target.isPointer = false ∧ target.defects = [] := by
  rw [defects, chainDefects, List.append_eq_nil_iff]
  cases target.isPointer <;> simp

theorem blankDefects_eq_nil_iff {layout : Layout} :
    blankDefects none layout = [] ↔ layout.isFixed = true := by
  unfold blankDefects
  cases layout.isFixed <;> simp

end Layout

/-- What a walk that stops at the first defect can answer, given whether anything absent is on its
way: it passes all parts, it names the first defect, it meets something absent, or a width does not
fit. -/
inductive Inspection {α : Type} (absent : Bool) (defects : List Defect) : Except Error α → Prop
  | passed (a : α) (clear : defects = []) : Inspection absent defects (.ok a)
  | named {defect : Defect} {text : String} (first : defects.head? = some defect)
      (names : defect.NamedBy text) : Inspection absent defects (.error (.unsupportedType text))
  | absent (met : absent = true) : Inspection absent defects (.error .noValue)
  | overflow : Inspection absent defects (.error Size.overflow)

namespace Inspection

variable {α β : Type} {absent absent₁ absent₂ : Bool} {defects defects₁ defects₂ : List Defect}

theorem mono {answer : Except Error α} (h : Inspection absent₁ defects answer)
    (ha : absent₁ = true → absent₂ = true) : Inspection absent₂ defects answer := by
  cases h with
  | passed a clear => exact .passed a clear
  | named first names => exact .named first names
  | absent met => exact .absent (ha met)
  | overflow => exact .overflow

/-- One part is inspected, and the rest behind it. -/
theorem bind {part : Except Error α} {rest : α → Except Error β}
    (h₁ : Inspection absent₁ defects₁ part)
    (h₂ : ∀ a, part = .ok a → Inspection absent₂ defects₂ (rest a)) :
    Inspection (absent₁ || absent₂) (defects₁ ++ defects₂) (part >>= rest) := by
  cases h₁ with
  | named first names =>
    exact .named (by rw [List.head?_append, first, Option.some_or]) names
  | absent met => exact .absent (by rw [met, Bool.true_or])
  | overflow => exact .overflow
  | passed a clear =>
    rw [clear, List.nil_append]
    exact (h₂ a rfl).mono fun met => by rw [met, Bool.or_true]

/-- A part is inspected, and behind it no defect can follow. -/
theorem last {part : Except Error α} {rest : α → Except Error β}
    (h₁ : Inspection absent defects part)
    (h₂ : ∀ a, part = .ok a → Inspection false [] (rest a)) :
    Inspection absent defects (part >>= rest) := by
  have h := h₁.bind h₂
  rwa [Bool.or_false, List.append_nil] at h

/-- Sizes are added or multiplied on the way, which can only fail to fit. -/
theorem check (n : Nat) : Inspection absent [] (Size.check n) := by
  unfold Size.check
  split
  · exact .passed n rfl
  · exact .overflow

/-- A part is inspected and its size taken into account before the rest. -/
theorem bind_check {part : Except Error Nat} {sum : Nat → Nat} {rest : Nat → Except Error β}
    (h₁ : Inspection absent₁ defects₁ part) (h₂ : ∀ n, Inspection absent₂ defects₂ (rest n)) :
    Inspection (absent₁ || absent₂) (defects₁ ++ defects₂)
      (part >>= fun n => Size.check (sum n) >>= rest) := by
  refine h₁.bind fun n _ => ?_
  have hcheck : Inspection false [] (Size.check (sum n)) := .check (sum n)
  exact hcheck.bind fun total _ => h₂ total

theorem clear_of_ok {a : α} (h : Inspection absent defects (.ok a : Except Error α)) :
    defects = [] := by
  cases h with
  | passed _ clear => exact clear

end Inspection

/-! ## Static widths -/

namespace Layout

theorem inspection_addWidths (total width : Option Nat) :
    Inspection false [] (addWidths total width) := by
  unfold addWidths
  split
  · exact (Inspection.check _).last fun sum _ => .passed (some sum) rfl
  · exact .passed none rfl

theorem isNone_staticWidth {l : Layout} {w : Option Nat} (h : l.staticWidth = .ok w) :
    w.isNone = !l.isFixed := by
  rw [staticWidth_eq l w h]
  cases l.isFixed <;> rfl

theorem inspection_pointer {α : Type} {absent : Bool} {text : String} {target : Layout}
    {next : Except Error α} (h : Inspection absent target.defects next) :
    Inspection absent (chainDefects target ++ target.defects)
      (if target.isPointer then .error (.unsupportedType ("&" ++ text)) else next) := by
  unfold chainDefects
  split
  · exact .named rfl ⟨text, rfl⟩
  · exact h

theorem inspection_blank {α : Type} {absent : Bool} {label : Option String} {layout : Layout}
    {width : Option Nat} {defects : List Defect} {next : Except Error α}
    (hw : layout.staticWidth = .ok width) (h : Inspection absent defects next) :
    Inspection absent (blankDefects label layout ++ defects)
      (if label.isNone && width.isNone then .error (variableBlank layout) else next) := by
  rw [isNone_staticWidth hw]
  unfold blankDefects
  split
  · exact .named rfl rfl
  · exact h

mutual

theorem inspection_staticWidth : (l : Layout) → Inspection false l.defects l.staticWidth
  | scalar kind => .passed _ rfl
  | complex precision => .passed _ rfl
  | array element length => by
    refine (inspection_staticWidth element).last fun width _ => ?_
    cases width with
    | none => exact .passed none rfl
    | some width => exact (Inspection.check _).last fun n _ => .passed (some n) rfl
  | slice element => (inspection_staticWidth element).last fun _ _ => .passed none rfl
  | record _ fields => Fields.inspection_staticWidth fields (some 0)
  | pointer target => inspection_pointer (inspection_staticWidth target)
  | unsupported name => .named rfl rfl

theorem Fields.inspection_staticWidth : (fields : Fields) → (total : Option Nat) →
    Inspection false fields.defects (fields.staticWidth total)
  | .nil, total => .passed total rfl
  | .cons label layout rest, total => by
    refine (Layout.inspection_staticWidth layout).bind fun width hwidth => ?_
    refine inspection_blank hwidth ?_
    exact (inspection_addWidths total width).bind fun sum _ =>
      Fields.inspection_staticWidth rest sum

end

theorem defects_of_staticWidth {l : Layout} {w : Option Nat} (h : l.staticWidth = .ok w) :
    l.defects = [] := by
  have hi := inspection_staticWidth l
  rw [h] at hi
  exact hi.clear_of_ok

theorem inspection_blankWidth (l : Layout) :
    Inspection false (l.defects ++ blankDefects none l) l.blankWidth := by
  refine (inspection_staticWidth l).bind fun width hwidth => ?_
  have hblank : Inspection false (blankDefects none l ++ [])
      (if (none : Option String).isNone && width.isNone then .error (variableBlank l)
        else .ok (width.getD 0)) := inspection_blank hwidth (.passed _ rfl)
  rw [List.append_nil] at hblank
  cases width <;> exact hblank

end Layout

/-! ## Sizes -/

namespace Schema

theorem defects_run (form : RunForm) (element : Schema) :
    (run form element).layout.defects = element.layout.defects := by
  cases form <;> rfl

theorem inspection_sumSizes {α : Type} {size : α → Except Error Nat} {absent : α → Bool}
    (h : ∀ x, Inspection (absent x) [] (size x)) (xs : List α) (total : Nat) :
    Inspection (xs.any absent) [] (sumSizes size xs total) := by
  induction xs generalizing total with
  | nil => exact .passed total rfl
  | cons x xs ih =>
    exact (h x).bind_check ih

theorem inspection_runSize {α : Type} {element : Layout} {size : α → Except Error Nat}
    {absent : α → Bool} (h : ∀ x, Inspection (absent x) element.defects (size x)) (xs : List α) :
    Inspection (xs.any absent) element.defects (runSize element size xs) := by
  have hrun : Inspection (false || xs.any absent) (element.defects ++ [])
      (runSize element size xs) := by
    refine (Layout.inspection_staticWidth element).bind fun width hwidth => ?_
    cases width with
    | some width => exact .check _
    -- The layout has answered for all elements: their sizes can no longer come across a defect.
    | none =>
      rw [Layout.defects_of_staticWidth hwidth] at h
      exact inspection_sumSizes h xs 0
  rwa [Bool.false_or, List.append_nil] at hrun

theorem inspection_target {α : Type} {absent : Bool} {target : Schema}
    {next : Except Error α} (h : Inspection absent target.layout.defects next) :
    Inspection absent (Layout.pointer target.layout).defects
      (checkTarget target >>= fun _ => next) := by
  have hp : Inspection absent (Layout.pointer target.layout).defects
      (if target.layout.isPointer then
        .error (.unsupportedType ("&" ++ target.qualifiedName)) else next) :=
    Layout.inspection_pointer h
  rw [isPointer_layout] at hp
  unfold checkTarget
  split <;> rename_i hr
  · rwa [if_pos hr] at hp
  · rwa [if_neg hr] at hp

mutual

theorem inspection_size : (s : Schema) → (v : s.Value) →
    Inspection (s.hasAbsent v) s.layout.defects (s.size v)
  | scalar kind, _ => .passed _ rfl
  | complex precision, _ => .passed _ rfl
  | machine kind, _ => .named rfl rfl
  | run form element, xs => by
    rw [defects_run]
    exact inspection_runSize (inspection_size element) xs.val
  | record _ fields, values => Fields.inspection_size fields values 0
  | ref _ target, v => inspection_target (inspection_size target v)
  | optional target, none => inspection_target (.absent rfl)
  | optional target, some v => inspection_target (inspection_size target v)

theorem Fields.inspection_size : (fields : Fields) → (values : fields.Values) → (total : Nat) →
    Inspection (fields.hasAbsent values) fields.layout.defects (fields.size values total)
  | .nil, _, total => .passed total rfl
  | .named _ schema rest, values, total =>
    (Schema.inspection_size schema values.1).bind_check (Fields.inspection_size rest values.2)
  | .blank schema rest, values, total => by
    rw [Fields.layout, Layout.Fields.defects, ← List.append_assoc]
    exact (Layout.inspection_blankWidth schema.layout).bind_check
      (Fields.inspection_size rest values)

end

theorem defects_of_size {s : Schema} {v : s.Value} {n : Nat} (h : s.size v = .ok n) :
    s.layout.defects = [] := by
  have hi := inspection_size s v
  rw [h] at hi
  exact hi.clear_of_ok

/-! ## Types without a fixed width -/

theorem unsupported_mem_chain {target : Layout} {name : String} :
    .unsupported name ∈ (Layout.pointer target).defects ↔ .unsupported name ∈ target.defects := by
  rw [Layout.defects, Layout.chainDefects]
  split <;> simp

theorem unsupported_mem_blank {label : Option String} {layout : Layout} {name : String} :
    .unsupported name ∉ Layout.blankDefects label layout := by
  unfold Layout.blankDefects
  split <;> simp

mutual

theorem machine_of_unsupported : (s : Schema) → {name : String} →
    .unsupported name ∈ s.layout.defects → ∃ kind : MachineInt, name = kind.name
  | scalar _, _, h => by cases h
  | complex _, _, h => by cases h
  | machine kind, name, h => by
    cases List.mem_singleton.1 h
    exact ⟨kind, rfl⟩
  | run form element, _, h => by
    rw [defects_run] at h
    exact machine_of_unsupported element h
  | record _ fields, _, h => Fields.machine_of_unsupported fields h
  | ref _ target, _, h => machine_of_unsupported target (unsupported_mem_chain.1 h)
  | optional target, _, h => machine_of_unsupported target (unsupported_mem_chain.1 h)

theorem Fields.machine_of_unsupported : (fields : Fields) → {name : String} →
    .unsupported name ∈ fields.layout.defects → ∃ kind : MachineInt, name = kind.name
  | .nil, _, h => by cases h
  | .named _ schema rest, _, h => by
    rcases List.mem_append.1 h with h | h
    · exact Schema.machine_of_unsupported schema h
    · exact Fields.machine_of_unsupported rest h
  | .blank schema rest, _, h => by
    rcases List.mem_append.1 h with h | h
    · exact Schema.machine_of_unsupported schema h
    · rcases List.mem_append.1 h with h | h
      · exact (unsupported_mem_blank h).elim
      · exact Fields.machine_of_unsupported rest h

end

end Schema

end ByteExact

import ByteExact.Config.Environment
import ByteExact.Config.File
/-!
# The grammar of the environment

Which texts spell a byte order and which a size, and what the two variables that may hold such
texts configure. An order is spelled by a few words, in any case and with separators anywhere; a
size by decimal digits, leading zeros allowed, behind a plus sign or none.

Results:
* `ByteOrder.ofText_eq_ok_iff`, `Numeral.ofText_eq_ok_iff`: exactly these texts are read.
* `ByteOrder.spells_iff_exists_respelled`: spellings are what respelling makes of the words.
* `ofEnvironment_grammar`: the configuration, or the variable that is named as bad.
-/
namespace ByteExact

/-! ## Byte orders -/

namespace ByteOrder

/-- The characters that may stand anywhere in the name of an order. -/
def isSeparator (c : Char) : Bool := c == '-' || c == '_'

/-- The words for an order. -/
def words : ByteOrder → List String
  | big => ["big", "bigendian", "be"]
  | little => ["little", "littleendian", "le"]

/-- The letters of a text: no separators, and lower case for ASCII letters. -/
def letters (text : List Char) : List Char :=
  (text.filter fun c => !isSeparator c).map Char.toLower

/-- A text spells an order if its letters are a word for it. -/
def Spells (order : ByteOrder) (text : String) : Prop :=
  String.ofList (letters text.toList) ∈ order.words

instance (order : ByteOrder) (text : String) : Decidable (order.Spells text) :=
  inferInstanceAs (Decidable (_ ∈ order.words))

/-- Lowering leaves a character alone, or makes an upper case letter a lower case one. -/
theorem toLower_eq_self_or (c : Char) :
    c.toLower = c ∨ (65 ≤ c.toNat ∧ c.toNat ≤ 90 ∧ c.toLower.toNat = c.toNat + 32) := by
  by_cases h : c.val ≥ 'A'.val ∧ c.val ≤ 'Z'.val
  · right
    have hlow : 65 ≤ c.toNat := h.1
    have hhigh : c.toNat ≤ 90 := h.2
    have hval : c.toLower.val = c.val + 32 := by
      have hlower : c.toLower = _ := dif_pos h
      rw [hlower]
      rfl
    have hnat : c.toLower.toNat = (c.toNat + 32) % 4294967296 := by
      show c.toLower.val.toNat = _
      rw [hval]
      rfl
    exact ⟨hlow, hhigh, by omega⟩
  · left
    exact dif_neg h

theorem isSeparator_eq_true_iff (c : Char) :
    isSeparator c = true ↔ c.toNat = 45 ∨ c.toNat = 95 := by
  have hhyphen : c = '-' ↔ c.toNat = 45 := Char.toNat_inj.symm
  have hunderscore : c = '_' ↔ c.toNat = 95 := Char.toNat_inj.symm
  rw [isSeparator, Bool.or_eq_true, beq_iff_eq, beq_iff_eq, hhyphen, hunderscore]

theorem isSeparator_toLower (c : Char) : isSeparator c.toLower = isSeparator c := by
  rcases toLower_eq_self_or c with h | ⟨hlow, hhigh, h⟩
  · rw [h]
  · rw [Bool.eq_iff_iff, isSeparator_eq_true_iff, isSeparator_eq_true_iff]
    omega

theorem toLower_toLower (c : Char) : c.toLower.toLower = c.toLower := by
  rcases toLower_eq_self_or c with h | ⟨hlow, hhigh, h⟩
  · rw [h, h]
  · rcases toLower_eq_self_or c.toLower with h' | ⟨hlow', hhigh', -⟩
    · exact h'
    · omega

theorem canonicalSpelling_eq (text : String) :
    canonicalSpelling text = String.ofList (letters text.toList) := by
  have htest : ((fun c => c != '-' && c != '_') ∘ Char.toLower) = fun c => !isSeparator c := by
    funext c
    rw [← isSeparator_toLower c]
    simp [isSeparator, bne]
  rw [canonicalSpelling, List.filter_map, htest, letters]

theorem ofText_eq (text : String) :
    ofText text =
      if big.Spells text then .ok big
      else if little.Spells text then .ok little
      else .error ⟨text⟩ := by
  simp only [Spells, ← canonicalSpelling_eq]
  rfl

theorem not_spells_both {text : String} (hbig : big.Spells text) (hlittle : little.Spells text) :
    False := by
  have hdisjoint : ∀ word ∈ big.words, word ∉ little.words := by decide
  exact hdisjoint _ hbig hlittle

/-- **The spellings of an order.** -/
theorem ofText_eq_ok_iff (text : String) (order : ByteOrder) :
    ofText text = .ok order ↔ order.Spells text := by
  rw [ofText_eq]
  by_cases hbig : big.Spells text
  · rw [if_pos hbig]
    cases order with
    | big => simp [hbig]
    | little => simpa using not_spells_both hbig
  · rw [if_neg hbig]
    by_cases hlittle : little.Spells text
    · rw [if_pos hlittle]
      cases order with
      | big => simp [hbig]
      | little => simp [hlittle]
    · rw [if_neg hlittle]
      cases order with
      | big => simp [hbig]
      | little => simp [hlittle]

/-- The second text has the letters of the first, each in either case, and may have more
separators. -/
inductive Respelled : List Char → List Char → Prop
  | nil : Respelled [] []
  | letter {c d : Char} {s t : List Char} (same : c.toLower = d.toLower) (rest : Respelled s t) :
      Respelled (c :: s) (d :: t)
  | separator {c : Char} {s t : List Char} (h : isSeparator c = true) (rest : Respelled s t) :
      Respelled s (c :: t)

theorem letters_separator {c : Char} (h : isSeparator c = true) (s : List Char) :
    letters (c :: s) = letters s := by
  rw [letters, List.filter_cons_of_neg (by simp [h])]
  rfl

theorem letters_letter {c : Char} (h : isSeparator c = false) (s : List Char) :
    letters (c :: s) = c.toLower :: letters s := by
  rw [letters, List.filter_cons_of_pos (by simp [h])]
  rfl

theorem Respelled.letters_eq {s t : List Char} (h : Respelled s t) : letters s = letters t := by
  induction h with
  | nil => rfl
  | @letter c d s t same rest ih =>
    have hsame : isSeparator c = isSeparator d := by
      rw [← isSeparator_toLower c, same, isSeparator_toLower]
    by_cases hc : isSeparator c = true
    · rw [letters_separator hc, letters_separator (hsame ▸ hc), ih]
    · have hc' : isSeparator c = false := Bool.eq_false_iff.2 hc
      rw [letters_letter hc', letters_letter (hsame ▸ hc'), ih, same]
  | separator hc rest ih => rw [letters_separator hc, ih]

theorem respelled_letters (s : List Char) : Respelled (letters s) s := by
  induction s with
  | nil => exact .nil
  | cons c s ih =>
    by_cases hc : isSeparator c = true
    · rw [letters_separator hc]
      exact .separator hc ih
    · rw [letters_letter (Bool.eq_false_iff.2 hc)]
      exact .letter (toLower_toLower c) ih

/-- Respelling a text changes nothing of what it spells. -/
theorem spells_congr {s t : String} (h : Respelled s.toList t.toList) (order : ByteOrder) :
    order.Spells s ↔ order.Spells t := by
  rw [Spells, Spells, h.letters_eq]

theorem spells_of_mem_words {order : ByteOrder} {word : String} (h : word ∈ order.words) :
    order.Spells word := by
  have hwords : ∀ order : ByteOrder, ∀ word ∈ order.words, order.Spells word := by
    intro order
    cases order <;> decide
  exact hwords order word h

/-- The spellings of an order are what respelling makes of its words. -/
theorem spells_iff_exists_respelled {order : ByteOrder} {text : String} :
    order.Spells text ↔ ∃ word ∈ order.words, Respelled word.toList text.toList := by
  constructor
  · intro h
    refine ⟨_, h, ?_⟩
    rw [String.toList_ofList]
    exact respelled_letters text.toList
  · rintro ⟨word, hword, h⟩
    exact (spells_congr h order).1 (spells_of_mem_words hword)

theorem ofText_name (order : ByteOrder) : ofText order.name = .ok order := by
  cases order <;> rfl

end ByteOrder

/-! ## Sizes -/

namespace Numeral

/-- A text spells a number if it is its decimal digits, leading zeros allowed, behind a plus sign or
none, and the number has 64 bits. -/
def Spells (n : Nat) (text : String) : Prop :=
  ∃ digits, (text.toList = digits ∨ text.toList = '+' :: digits) ∧ digits ≠ [] ∧
    (∀ c ∈ digits, c.isDigit = true) ∧ Nat.ofDigitChars 10 digits 0 = n ∧ n < bound

theorem digit?_eq (c : Char) :
    digit? c = if c.isDigit = true then some (c.toNat - '0'.toNat) else none := by
  have hdigit : c.isDigit = true ↔ '0' ≤ c ∧ c ≤ '9' := Char.isDigit_iff_toNat
  by_cases h : c.isDigit = true
  · rw [digit?, if_pos (hdigit.1 h), if_pos h]
  · rw [digit?, if_neg (mt hdigit.2 h), if_neg h]

/-- More digits never make a number smaller. -/
theorem le_ofDigitChars (total : Nat) (digits : List Char) :
    total ≤ Nat.ofDigitChars 10 digits total := by
  induction digits generalizing total with
  | nil => exact Nat.le_refl _
  | cons c digits ih =>
    rw [Nat.ofDigitChars_cons]
    have := ih (10 * total + (c.toNat - '0'.toNat))
    omega

/-- Reading goes on to the end exactly if digits follow and the number that they make fits. The
induction is on the digits; a number that is too large stays so. -/
theorem extend_eq_ok_iff {total n : Nat} (htotal : total < bound) (s : List Char) :
    extend total s = .ok n ↔
      (∀ c ∈ s, c.isDigit = true) ∧ Nat.ofDigitChars 10 s total = n ∧ n < bound := by
  induction s generalizing total with
  | nil =>
    rw [extend, Except.ok.injEq, Nat.ofDigitChars_nil]
    constructor
    · rintro rfl
      exact ⟨nofun, rfl, htotal⟩
    · rintro ⟨-, h, -⟩
      exact h
  | cons c s ih =>
    have hgrows := le_ofDigitChars (10 * total + (c.toNat - '0'.toNat)) s
    rw [extend, digit?_eq, Nat.ofDigitChars_cons, List.forall_mem_cons]
    generalize c.toNat - '0'.toNat = d at hgrows ⊢
    by_cases hc : c.isDigit = true
    · rw [if_pos hc]
      by_cases hfits : 10 * total + d < bound
      · simp [hfits, ih hfits, hc]
      · simp only [hfits, if_false, reduceCtorEq, false_iff]
        rintro ⟨-, h, hn⟩
        omega
    · simp [hc]

/-- **The spellings of a size.** -/
theorem ofText_eq_ok_iff (text : String) (n : Nat) : ofText text = .ok n ↔ Spells n text := by
  rw [ofText, Spells]
  generalize text.toList = s
  have hplus : ('+').isDigit = false := by decide
  have hbound : 0 < bound := by decide
  cases s with
  | nil => simp [ofChars]
  | cons c s =>
    by_cases hc : c = '+'
    · subst hc
      cases s with
      | nil => simp [ofChars, hplus]
      | cons d s => simp [ofChars, extend_eq_ok_iff hbound, hplus]
    · simp [ofChars, hc, extend_eq_ok_iff hbound]

end Numeral

/-! ## The two variables -/

namespace Config

/-- What a variable makes of a setting: what its text spells, and the standard value if it is not
set. -/
def Gives {α : Type} (spells : α → String → Prop) (standard : α) : Option String → α → Prop
  | none, a => a = standard
  | some text, a => spells a text

/-- A fault whose wording begins with the name of a variable. -/
def Fault.Names (fault : Fault) (name : String) : Prop :=
  ∃ reason, fault.message = name ++ ": " ++ reason

theorem names_badByteOrder (cause : UnknownByteOrder) :
    (Fault.badByteOrder cause).Names byteOrderVariable :=
  ⟨cause.message, rfl⟩

theorem names_badMaxValueSize (cause : NumeralFault) :
    (Fault.badMaxValueSize cause).Names maxValueSizeVariable :=
  ⟨cause.message, rfl⟩

/-- A variable that is set to a text has that text, and one that is not set has none. -/
theorem Environment.text?_eq {env : Environment} {name : String} {text : Option String}
    (h : env name = text.map String.toUTF8) : env.text? name = text := by
  rw [text?, h]
  cases text with
  | none => rfl
  | some text => exact Place.text?_file text

/-- The setting that a variable holds, by the reader of its texts. -/
def setting {α ε : Type} (read : String → Except ε α) (fault : ε → Fault) (standard : α) :
    Option String → Except Error α
  | none => .ok standard
  | some text =>
    match read text with
    | .ok a => .ok a
    | .error cause => .error (.config (fault cause))

theorem byteOrder_eq_setting (env : Environment) :
    env.byteOrder = setting ByteOrder.ofText .badByteOrder standard.byteOrder
      (env.text? byteOrderVariable) := by
  rw [Environment.byteOrder]
  cases env.text? byteOrderVariable with
  | none => rfl
  | some text =>
    dsimp only [setting]
    cases ByteOrder.ofText text <;> rfl

theorem maxValueSize_eq_setting (env : Environment) :
    env.maxValueSize = setting Numeral.ofText .badMaxValueSize standard.maxValueSize
      (env.text? maxValueSizeVariable) := by
  rw [Environment.maxValueSize]
  cases env.text? maxValueSizeVariable with
  | none => rfl
  | some text =>
    dsimp only [setting]
    cases Numeral.ofText text <;> rfl

section Setting

variable {α ε : Type} {read : String → Except ε α} {spells : α → String → Prop} {fault : ε → Fault}
  {standard : α}

theorem setting_eq_ok_iff (hread : ∀ text a, read text = .ok a ↔ spells a text)
    (text : Option String) (a : α) :
    setting read fault standard text = .ok a ↔ Gives spells standard text a := by
  cases text with
  | none => simp [setting, Gives, eq_comm]
  | some text =>
    rw [Gives, ← hread, setting]
    cases read text <;> simp

/-- A variable that gives no setting is refused by its name. -/
theorem names_of_setting (hread : ∀ text a, read text = .ok a ↔ spells a text) {name : String}
    (hname : ∀ cause, (fault cause).Names name) {text : Option String}
    (h : ¬∃ a, Gives spells standard text a) :
    ∃ why, setting read fault standard text = .error (.config why) ∧ why.Names name := by
  cases text with
  | none => exact absurd ⟨standard, rfl⟩ h
  | some text =>
    cases hresult : read text with
    | ok a => exact absurd ⟨a, (hread text a).1 hresult⟩ h
    | error cause =>
      refine ⟨fault cause, ?_, hname cause⟩
      rw [setting, hresult]

end Setting

theorem ofEnvironment_eq_ok_iff {env : Environment} {config : Config} :
    ofEnvironment env = .ok config ↔
      env.byteOrder = .ok config.byteOrder ∧ env.maxValueSize = .ok config.maxValueSize := by
  obtain ⟨order, n⟩ := config
  rw [ofEnvironment]
  cases env.byteOrder with
  | error e => simp [bind, Except.bind]
  | ok order' =>
    cases env.maxValueSize with
    | error e => simp [bind, Except.bind]
    | ok n' => simp [bind, Except.bind, pure, Except.pure]

theorem ofEnvironment_of_byteOrder {env : Environment} {e : Error} (h : env.byteOrder = .error e) :
    ofEnvironment env = .error e := by
  rw [ofEnvironment, h]
  rfl

theorem ofEnvironment_of_maxValueSize {env : Environment} {order : ByteOrder} {e : Error}
    (horder : env.byteOrder = .ok order) (h : env.maxValueSize = .error e) :
    ofEnvironment env = .error e := by
  rw [ofEnvironment, horder, h]
  rfl

/-- **The grammar of the environment.** Whatever the two variables are, unset or set to any text,
the configuration has what each of them gives on its own; if one of them gives nothing, the error
names it, the byte order first. The texts that give a setting are those that its reader accepts.
Case and separators change nothing of an order, and the name that an order is shown with is one of
its spellings. -/
theorem ofEnvironment_grammar {env : Environment} {order size : Option String}
    (horder : env byteOrderVariable = order.map String.toUTF8)
    (hsize : env maxValueSizeVariable = size.map String.toUTF8) :
    (∀ config, ofEnvironment env = .ok config ↔
      Gives ByteOrder.Spells standard.byteOrder order config.byteOrder ∧
        Gives Numeral.Spells standard.maxValueSize size config.maxValueSize) ∧
    ((¬∃ o, Gives ByteOrder.Spells standard.byteOrder order o) →
      ∃ fault, ofEnvironment env = .error (.config fault) ∧ fault.Names byteOrderVariable) ∧
    ((∃ o, Gives ByteOrder.Spells standard.byteOrder order o) →
      (¬∃ n, Gives Numeral.Spells standard.maxValueSize size n) →
        ∃ fault, ofEnvironment env = .error (.config fault) ∧ fault.Names maxValueSizeVariable) ∧
    (∀ text o, ByteOrder.ofText text = .ok o ↔ o.Spells text) ∧
    (∀ text n, Numeral.ofText text = .ok n ↔ Numeral.Spells n text) ∧
    (∀ s t : String, ByteOrder.Respelled s.toList t.toList →
      ∀ o, ByteOrder.ofText s = .ok o ↔ ByteOrder.ofText t = .ok o) ∧
    ∀ o : ByteOrder, ByteOrder.ofText o.name = .ok o := by
  have hbyteOrder : env.byteOrder = _ := byteOrder_eq_setting env
  have hmaxValueSize : env.maxValueSize = _ := maxValueSize_eq_setting env
  rw [Environment.text?_eq horder] at hbyteOrder
  rw [Environment.text?_eq hsize] at hmaxValueSize
  have horders := ByteOrder.ofText_eq_ok_iff
  have hsizes := Numeral.ofText_eq_ok_iff
  refine ⟨?_, ?_, ?_, horders, hsizes, ?_, ByteOrder.ofText_name⟩
  · intro config
    rw [ofEnvironment_eq_ok_iff, hbyteOrder, hmaxValueSize, setting_eq_ok_iff horders,
      setting_eq_ok_iff hsizes]
  · intro hbad
    obtain ⟨fault, hfault, hnames⟩ := names_of_setting horders names_badByteOrder hbad
    exact ⟨fault, ofEnvironment_of_byteOrder (hbyteOrder.trans hfault), hnames⟩
  · rintro ⟨o, ho⟩ hbad
    have hok := hbyteOrder.trans ((setting_eq_ok_iff horders order o).2 ho)
    obtain ⟨fault, hfault, hnames⟩ := names_of_setting hsizes names_badMaxValueSize hbad
    exact ⟨fault, ofEnvironment_of_maxValueSize hok (hmaxValueSize.trans hfault), hnames⟩
  · intro s t h o
    rw [ByteOrder.ofText_eq_ok_iff, ByteOrder.ofText_eq_ok_iff, ByteOrder.spells_congr h]

/-- The environment in which no variables but the two are set. -/
def Environment.ofTexts (order size : Option String) : Environment := fun name =>
  if name = byteOrderVariable then order.map String.toUTF8
  else if name = maxValueSizeVariable then size.map String.toUTF8
  else none

theorem Environment.ofTexts_byteOrderVariable (order size : Option String) :
    ofTexts order size byteOrderVariable = order.map String.toUTF8 :=
  if_pos rfl

theorem Environment.ofTexts_maxValueSizeVariable (order size : Option String) :
    ofTexts order size maxValueSizeVariable = size.map String.toUTF8 := by
  have hother : maxValueSizeVariable ≠ byteOrderVariable := by decide
  rw [ofTexts, if_neg hother, if_pos rfl]

theorem ofEnvironment_grammar_respelled_and_bad :
    ofEnvironment (.ofTexts (some "-LITTLE_endian") (some "+0065536")) = .ok ⟨.little, 65536⟩ ∧
    ∃ fault, ofEnvironment (.ofTexts (some "middle") (some "-1")) = .error (.config fault) ∧
      fault.Names byteOrderVariable := by
  constructor
  · obtain ⟨haccepts, -⟩ := ofEnvironment_grammar
      (Environment.ofTexts_byteOrderVariable (some "-LITTLE_endian") (some "+0065536"))
      (Environment.ofTexts_maxValueSizeVariable _ _)
    rw [haccepts]
    have horder : ByteOrder.little.Spells "-LITTLE_endian" := by decide
    have hsize : Numeral.Spells 65536 "+0065536" :=
      ⟨"0065536".toList, .inr rfl, by decide, List.all_eq_true.1 rfl, rfl, by decide⟩
    exact ⟨horder, hsize⟩
  · obtain ⟨-, hrefuses, -⟩ := ofEnvironment_grammar
      (Environment.ofTexts_byteOrderVariable (some "middle") (some "-1"))
      (Environment.ofTexts_maxValueSizeVariable _ _)
    apply hrefuses
    rintro ⟨order, horder⟩
    have hbad : ∀ order : ByteOrder, ¬order.Spells "middle" := by
      intro order
      cases order <;> decide
    exact hbad order horder

end Config

end ByteExact

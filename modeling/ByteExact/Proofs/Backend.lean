import ByteExact.Proofs.Statement
import ByteExact.Toml.Printer
/-!
# The standard backend

The reader of documents takes a document of plain statements apart into exactly its entries, and the
printer of plain statements prints what has a plain spelling. So the two follow the laws of TOML.

Results:
* `readPath_bare`, `readAtom_basic`, `readAtom_literal`, `readAtom_toDigits`: names, strings and
  decimal digits are read up to where they end.
* `readLine_line`: one statement is one line to the reader.
* `entries?_render`: a document of plain statements has their entries, in order.
* `Backend.followsToml_standard`: all the laws.
-/
namespace ByteExact.Toml

/-! ## Names -/

/-- A character of a class is none outside of it. -/
theorem ne_of_class {p : Char → Bool} {c d : Char} (hc : p c = true) (hd : p d = false) :
    c ≠ d := by
  rintro rfl
  rw [hc] at hd
  cases hd

theorem isBlank_of_isBare {c : Char} (h : isBare c = true) : isBlank c = false := by
  by_cases hb : isBlank c = true
  · simp only [isBlank, Bool.or_eq_true, beq_iff_eq] at hb
    rcases hb with rfl | rfl <;> exact absurd h (by decide)
  · exact Bool.eq_false_iff.2 hb

theorem skipBlanks_cons {c : Char} (h : isBlank c = false) (s : List Char) :
    skipBlanks (c :: s) = c :: s := by
  rw [skipBlanks, List.dropWhile_cons, h]
  rfl

theorem skipBlanks_append {name : List Char} (hne : name ≠ []) (hbare : ∀ c ∈ name, isBare c = true)
    (s : List Char) : skipBlanks (name ++ s) = name ++ s := by
  cases name with
  | nil => exact absurd rfl hne
  | cons c name => exact skipBlanks_cons (isBlank_of_isBare (hbare c (List.mem_cons_self ..))) _

theorem readName_bare {name : List Char} (hne : name ≠ []) (hbare : ∀ c ∈ name, isBare c = true)
    {c : Char} (hc : isBare c = false) (s : List Char) :
    readName (name ++ c :: s) = some (String.ofList name, c :: s) := by
  have htake : (name ++ c :: s).takeWhile isBare = name := by
    rw [List.takeWhile_append_of_pos hbare, List.takeWhile_cons_of_neg (by simp [hc]),
      List.append_nil]
  have hdrop : (name ++ c :: s).dropWhile isBare = c :: s := by
    rw [List.dropWhile_append_of_pos hbare, List.dropWhile_cons_of_neg (by simp [hc])]
  rw [readName, htake, hdrop]
  cases name with
  | nil => exact absurd rfl hne
  | cons c name => rfl

theorem readPath_bare (limit : Nat) {name : List Char} (hne : name ≠ [])
    (hbare : ∀ c ∈ name, isBare c = true) (s : List Char) :
    readPath (limit + 1) (name ++ ' ' :: '=' :: s) = some ([String.ofList name], '=' :: s) := by
  rw [readPath, skipBlanks_append hne hbare, readName_bare hne hbare (by decide)]
  rfl

/-! ## Strings -/

theorem isPlain_of_isPrintable {c : Char} (h : isPrintable c = true) : isPlain c = true := by
  rw [isPrintable] at h
  rw [isPlain, h, Bool.or_true, Bool.true_or]

theorem basicRest_basic {text : List Char} (h : text.all isBasic = true) (s : List Char) :
    Text.basicRest false (.plain false) (text ++ '"' :: s) = some (text, s) := by
  induction text with
  | nil => simp [Text.basicRest]
  | cons c text ih =>
    rw [List.all_cons, Bool.and_eq_true] at h
    obtain ⟨hc, htext⟩ := h
    simp only [isBasic, Bool.and_eq_true, bne_iff_ne] at hc
    rw [List.cons_append, Text.basicRest]
    simp [hc, isPlain_of_isPrintable hc.1.1, ih htext, Text.emit]

theorem literalRest_literal {text : List Char} (h : text.all isLiteral = true) (s : List Char) :
    Text.literalRest false (text ++ Text.apostrophe :: s) = some (text, s) := by
  induction text with
  | nil => simp [Text.literalRest]
  | cons c text ih =>
    rw [List.all_cons, Bool.and_eq_true] at h
    obtain ⟨hc, htext⟩ := h
    simp only [isLiteral, Bool.and_eq_true, bne_iff_ne] at hc
    have hquote : c ≠ Text.apostrophe := hc.2
    rw [List.cons_append, Text.literalRest]
    simp [hquote, isPlain_of_isPrintable hc.1, ih htext, Text.emit]

/-- A quote before another character opens a string on one line. -/
theorem read_eq_readLine {quote c : Char} (hc : c ≠ quote)
    (hquote : quote = '"' ∨ quote = Text.apostrophe) (s : List Char) :
    Text.read (quote :: c :: s) = Text.readLine (quote :: c :: s) := by
  cases s with
  | nil => rfl
  | cons d s =>
    rcases hquote with rfl | rfl
    · simp [Text.read, hc, Text.apostrophe]
    · rw [Text.apostrophe] at hc ⊢
      simp [Text.read, hc, Text.apostrophe]

/-- A text that does not begin with a quote is no string. -/
theorem read_eq_none {c : Char} (h₁ : c ≠ '"') (h₂ : c ≠ Text.apostrophe) (s : List Char) :
    Text.read (c :: s) = none := by
  have hline (s : List Char) : Text.readLine (c :: s) = none := by
    simp [Text.readLine, h₁, h₂]
  rcases s with _ | ⟨a, _ | ⟨b, s⟩⟩
  · exact hline []
  · exact hline [a]
  · simp [Text.read, h₁, h₂, hline]

/-- A text between quotes of one kind that is read on its line is a value. Only without characters
could its quotes open a string on several lines. -/
theorem readAtom_of_readLine {quote : Char} (hquote : quote = '"' ∨ quote = Text.apostrophe)
    {value : String} (hne : value.toList ≠ []) (hout : quote ∉ value.toList) {s : List Char}
    (hline : Text.readLine (quote :: value.toList ++ quote :: s) = some (value, s)) :
    readAtom (quote :: value.toList ++ quote :: s) = some (.text value, s) := by
  have hread : Text.read (quote :: value.toList ++ quote :: s) = some (value, s) := by
    rw [← hline]
    cases htext : value.toList with
    | nil => exact absurd htext hne
    | cons c text =>
      rw [htext, List.mem_cons, not_or] at hout
      exact read_eq_readLine (Ne.symm hout.1) hquote _
  rw [readAtom, hread]
  rfl

theorem readAtom_basic {value : String} (hne : value.toList ≠ [])
    (h : value.toList.all isBasic = true) (s : List Char) :
    readAtom ('"' :: value.toList ++ '"' :: s) = some (.text value, s) := by
  apply readAtom_of_readLine (.inl rfl) hne (not_mem_of_all h (by decide))
  show Text.finish (Text.basicRest false (.plain false) (value.toList ++ '"' :: s)) = _
  rw [basicRest_basic h]
  show some (String.ofList value.toList, s) = _
  rw [String.ofList_toList]

theorem readAtom_literal {value : String} (hne : value.toList ≠ [])
    (h : value.toList.all isLiteral = true) (s : List Char) :
    readAtom (Text.apostrophe :: value.toList ++ Text.apostrophe :: s) =
      some (.text value, s) := by
  apply readAtom_of_readLine (.inr rfl) hne (not_mem_of_all h (by decide))
  show Text.finish (Text.literalRest false (value.toList ++ Text.apostrophe :: s)) = _
  rw [literalRest_literal h]
  show some (String.ofList value.toList, s) = _
  rw [String.ofList_toList]

/-! ## Decimal digits -/

/-- Behind digits that were read stand more of them, or the end of the line. -/
theorem behind?_fixedDigits {digits : List Char} (hdigits : ∀ c ∈ digits, c.isDigit = true)
    {mark : Char} (hmark : mark.isDigit = false) (hend : mark ≠ '\n') (s : List Char)
    {count n : Nat} {rest : List Char}
    (h : Moment.fixedDigits count (digits ++ '\n' :: s) = some (n, rest)) :
    Moment.behind? mark rest = none := by
  rw [Moment.fixedDigits] at h
  split at h
  · rename_i hread
    have hrest : rest = (digits ++ '\n' :: s).drop count := by
      cases h
      rfl
    by_cases hcount : count ≤ digits.length
    · rw [hrest, List.drop_append_of_le_length hcount]
      cases hd : digits.drop count with
      | nil => simp [Moment.behind?, Ne.symm hend]
      | cons c more =>
        have hc : c.isDigit = true := hdigits c (List.mem_of_mem_drop (hd ▸ List.mem_cons_self ..))
        simp [Moment.behind?, ne_of_class hc hmark]
    · have hmem : '\n' ∈ (digits ++ '\n' :: s).take count := by
        have hsplit : count = digits.length + (count - digits.length - 1 + 1) := by omega
        rw [hsplit, List.take_length_add_append, List.take_succ_cons]
        simp
      exact absurd (List.all_eq_true.1 hread.2 _ hmem) (by decide)
  · cases h

theorem readMoment_digits {digits : List Char} (hdigits : ∀ c ∈ digits, c.isDigit = true)
    (s : List Char) : Moment.read (digits ++ '\n' :: s) = none := by
  have hdate : Moment.date? (digits ++ '\n' :: s) = none := by
    rw [Moment.date?]
    cases h : Moment.fixedDigits 4 (digits ++ '\n' :: s) with
    | none => rfl
    | some read =>
      show (Moment.behind? '-' read.2).bind _ = none
      rw [behind?_fixedDigits hdigits (by decide) (by decide) s h]
      rfl
  have htime : Moment.time? (digits ++ '\n' :: s) = none := by
    rw [Moment.time?]
    cases h : Moment.ranged 2 0 23 (digits ++ '\n' :: s) with
    | none => rfl
    | some read =>
      show (Moment.behind? ':' read.2).bind _ = none
      have hread := Option.eq_some_of_filter_eq_some h
      rw [behind?_fixedDigits hdigits (by decide) (by decide) s hread]
      rfl
  rw [Moment.read, hdate, htime]
  rfl

theorem moreDigits_digits {digits : List Char} (hdigits : ∀ c ∈ digits, c.isDigit = true)
    (s : List Char) :
    Number.moreDigits Char.isDigit (digits ++ '\n' :: s) = (digits, '\n' :: s) := by
  induction digits with
  | nil => simp [Number.moreDigits]
  | cons c digits ih =>
    rw [List.forall_mem_cons] at hdigits
    rw [List.cons_append, Number.moreDigits, if_pos hdigits.1, ih hdigits.2]

theorem digitRun_digits {digits : List Char} (hne : digits ≠ [])
    (hdigits : ∀ c ∈ digits, c.isDigit = true) (s : List Char) :
    Number.digitRun Char.isDigit (digits ++ '\n' :: s) = some (digits, '\n' :: s) := by
  cases digits with
  | nil => exact absurd rfl hne
  | cons c digits =>
    rw [List.forall_mem_cons] at hdigits
    rw [List.cons_append, Number.digitRun, if_pos hdigits.1, moreDigits_digits hdigits.2]

/-- A number has no leading zeros in decimal: only zero itself begins with one. -/
theorem toDigits_eq_zero_cons (n : Nat) {more : List Char}
    (h : Nat.toDigits 10 n = '0' :: more) : more = [] := by
  induction n using Nat.strongRecOn generalizing more with
  | ind n ih =>
    by_cases hn : n < 10
    · rw [Nat.toDigits_of_lt_base hn] at h
      exact (List.cons_eq_cons.1 h).2.symm
    · have hlast : Nat.toDigits 10 n = Nat.toDigits 10 (n / 10) ++ [Nat.digitChar (n % 10)] :=
        Nat.toDigits_of_base_le (by decide) (by omega)
      have hvalue := Nat.ofDigitChars_ten_toDigits (n := n / 10)
      rw [hlast] at h
      cases hfront : Nat.toDigits 10 (n / 10) with
      | nil => exact absurd hfront Nat.toDigits_ne_nil
      | cons c front =>
        rw [hfront, List.cons_append] at h
        rw [(List.cons_eq_cons.1 h).1] at hfront
        rw [hfront, ih (n / 10) (by omega) hfront] at hvalue
        have hzero : n / 10 = 0 := hvalue.symm
        omega

/-- The digits of a number: there is a first one, which is a zero only if it is the last, too. -/
theorem exists_toDigits_eq_cons (n : Nat) :
    ∃ c more, Nat.toDigits 10 n = c :: more ∧ c.isDigit = true ∧ (c = '0' → more = []) := by
  cases h : Nat.toDigits 10 n with
  | nil => exact absurd h Nat.toDigits_ne_nil
  | cons c more =>
    refine ⟨c, more, rfl, isDigit_toDigits n c (h ▸ List.mem_cons_self ..), ?_⟩
    rintro rfl
    exact toDigits_eq_zero_cons n h

theorem sign_digit {c : Char} (hc : c.isDigit = true) (s : List Char) :
    Number.sign (c :: s) = (false, c :: s) := by
  have hminus : c ≠ '-' := ne_of_class hc (by decide)
  have hplus : c ≠ '+' := ne_of_class hc (by decide)
  simp [Number.sign, hminus, hplus]

theorem special_digit {c : Char} (hc : c.isDigit = true) (s : List Char) :
    Number.special (c :: s) = none := by
  have hi : c ≠ 'i' := ne_of_class hc (by decide)
  have hn : c ≠ 'n' := ne_of_class hc (by decide)
  simp [Number.special, sign_digit hc, hi, hn]

theorem inRange?_eq_some {n : Nat} (hn : n < 9223372036854775808) :
    Number.inRange? n = some (.integer n) := by
  have hmin : Int64.minValue.toInt ≤ 0 := by decide
  have hmax : Int64.maxValue.toInt = 9223372036854775807 := rfl
  rw [Number.inRange?, if_pos (by omega)]

/-- Digits without a leading zero are a whole part. -/
theorem wholePart_toDigits (n : Nat) (s : List Char) :
    Number.wholePart (Nat.toDigits 10 n ++ '\n' :: s) = some (Nat.toDigits 10 n, '\n' :: s) := by
  have hrun := digitRun_digits Nat.toDigits_ne_nil (isDigit_toDigits n) s
  obtain ⟨c, more, h, -, hzero⟩ := exists_toDigits_eq_cons n
  rw [h] at hrun ⊢
  by_cases hc : c = '0'
  · rw [hzero hc, hc]
    rfl
  · rw [← hrun]
    simp [Number.wholePart, hc]

/-- Digits up to the end of a line are an integer: no fraction and no power of ten follows. -/
theorem decimal_toDigits {n : Nat} (hn : n < 9223372036854775808) (s : List Char) :
    Number.decimal (Nat.toDigits 10 n ++ '\n' :: s) = some (.integer n, '\n' :: s) := by
  have hwhole := wholePart_toDigits n s
  have hvalue : Number.spelled (Nat.toDigits 10 n) = n := Nat.ofDigitChars_ten_toDigits
  have hend : Number.exponent ('\n' :: s) = some (0, '\n' :: s) := rfl
  obtain ⟨c, more, h, hc, -⟩ := exists_toDigits_eq_cons n
  rw [h, List.cons_append] at hwhole ⊢
  rw [h] at hvalue
  simp [Number.decimal, sign_digit hc, hwhole, Number.fraction, hend, hvalue, inRange?_eq_some hn]

theorem read_toDigits {n : Nat} (hn : n < 9223372036854775808) (s : List Char) :
    Number.read (Nat.toDigits 10 n ++ '\n' :: s) = some (.integer n, '\n' :: s) := by
  have hdecimal := decimal_toDigits hn s
  obtain ⟨c, more, h, hc, hzero⟩ := exists_toDigits_eq_cons n
  rw [h, List.cons_append] at hdecimal ⊢
  have hread : (Number.special (c :: (more ++ '\n' :: s))).or
      (Number.decimal (c :: (more ++ '\n' :: s))) = some (.integer n, '\n' :: s) := by
    rw [special_digit hc, hdecimal]
    rfl
  rw [← hread]
  by_cases hc : c = '0'
  · rw [hzero hc, hc]
    rfl
  · simp [Number.read, hc]

/-- The digits of a natural number that has 63 bits are read as that number. -/
theorem readAtom_toDigits {n : Nat} (hn : n < 9223372036854775808) (s : List Char) :
    readAtom (Nat.toDigits 10 n ++ '\n' :: s) = some (.integer n, '\n' :: s) := by
  have hmoment := readMoment_digits (isDigit_toDigits n) s
  have hnumber := read_toDigits hn s
  obtain ⟨c, more, h, hc, -⟩ := exists_toDigits_eq_cons n
  rw [h, List.cons_append] at hmoment hnumber ⊢
  have htext : Text.read (c :: (more ++ '\n' :: s)) = none :=
    read_eq_none (ne_of_class hc (by decide)) (ne_of_class hc (by decide)) _
  have hboolean : readBoolean (c :: (more ++ '\n' :: s)) = none := by
    have ht : c ≠ 't' := ne_of_class hc (by decide)
    have hf : c ≠ 'f' := ne_of_class hc (by decide)
    simp [readBoolean, ht, hf]
  rw [readAtom, htext, hboolean, hmoment, hnumber]
  rfl

/-- A value that opens no bracket holds no other value. -/
theorem readValue_of_readAtom {c : Char} {s : List Char} {answer : Option (Node × List Char)}
    (hblank : isBlank c = false) (h₁ : c ≠ '[') (h₂ : c ≠ '\x7b')
    (hread : readAtom (c :: s) = answer) : readValue (skipBlanks (c :: s)) = answer := by
  rw [skipBlanks_cons hblank, ← hread]
  simp [readValue, depthLimit, readNested, h₁, h₂]

theorem readValue_spells {spelling : List Char} {node : Node} (h : Spells spelling node)
    (s : List Char) :
    readValue (skipBlanks (spelling ++ '\n' :: s)) = some (node, '\n' :: s) := by
  cases h with
  | basic value hne hall =>
    have hread := readAtom_basic hne hall ('\n' :: s)
    rw [List.append_assoc]
    exact readValue_of_readAtom (by decide) (by decide) (by decide) hread
  | literal value hne hall =>
    have hread := readAtom_literal hne hall ('\n' :: s)
    rw [List.append_assoc]
    exact readValue_of_readAtom (by decide) (by decide) (by decide) hread
  | decimal n fits =>
    have hread := readAtom_toDigits fits s
    obtain ⟨c, more, h, hc, -⟩ := exists_toDigits_eq_cons n
    have hbare : isBare c = true := by simp [isBare, Char.isAlphanum, hc]
    have hopen : c ≠ '[' := ne_of_class hc (by decide)
    have hbrace : c ≠ '\x7b' := ne_of_class hc (by decide)
    rw [h, List.cons_append] at hread ⊢
    exact readValue_of_readAtom (isBlank_of_isBare hbare) hopen hbrace hread

/-! ## Statements -/

namespace Statement

/-- A line begins with a character of its key. -/
theorem exists_line_eq_cons (stmt : Statement) :
    ∃ c tail, isBare c = true ∧ stmt.line = c :: tail := by
  have hbare := stmt.isBare_of_mem
  cases h : stmt.key.toList with
  | nil => exact absurd h stmt.key_ne_nil
  | cons c key =>
    rw [h] at hbare
    refine ⟨c, key ++ [' ', '=', ' '] ++ stmt.spelling, hbare c (List.mem_cons_self ..), ?_⟩
    rw [line, h]
    rfl

theorem readKeySign_line (stmt : Statement) (rest : List Char) :
    readKeySign (stmt.line ++ '\n' :: rest) =
      some ([stmt.key], skipBlanks (stmt.spelling ++ '\n' :: rest)) := by
  have hkey : readKey (stmt.line ++ '\n' :: rest) =
      some ([stmt.key], '=' :: ' ' :: (stmt.spelling ++ '\n' :: rest)) := by
    have hpath := readPath_bare (depthLimit - 2) stmt.key_ne_nil stmt.isBare_of_mem
      (' ' :: (stmt.spelling ++ '\n' :: rest))
    rw [String.ofList_toList] at hpath
    simpa [readKey, depthLimit, line] using hpath
  rw [readKeySign, hkey]
  rfl

/-- To the reader a statement is one line, which gives the key its value in the current table. -/
theorem readLine_line (stmt : Statement) (doc : Document) (rest : List Char) :
    doc.readLine (stmt.line ++ '\n' :: rest) =
      (doc.assign [stmt.key] stmt.node).map fun doc => (doc, rest) := by
  have hsign := readKeySign_line stmt rest
  have hend : lineEnd? ('\n' :: rest) = some rest := rfl
  obtain ⟨c, tail, hc, hline⟩ := stmt.exists_line_eq_cons
  rw [hline, List.cons_append] at hsign ⊢
  have hcomment : c ≠ '#' := ne_of_class hc (by decide)
  have hfeed : c ≠ '\n' := ne_of_class hc (by decide)
  have hreturn : c ≠ '\r' := ne_of_class hc (by decide)
  have hheader : c ≠ '[' := ne_of_class hc (by decide)
  cases hassign : doc.assign [stmt.key] stmt.node <;>
    simp [Document.readLine, hcomment, hfeed, hreturn, hheader, hsign, readValue_spells stmt.spells,
      hassign, hend]

/-- A key that a table does not have is added behind its entries. -/
theorem setEntry_new {key : String} {entries : Entries} (h : key ∉ entries.map Prod.fst)
    (node : Node) : setEntry key node entries = entries ++ [(key, node)] := by
  induction entries with
  | nil => rfl
  | cons first entries ih =>
    rw [List.map_cons, List.mem_cons, not_or] at h
    obtain ⟨k, old⟩ := first
    have hk : (k == key) = false := beq_eq_false_iff_ne.2 (Ne.symm h.1)
    rw [setEntry, if_neg (by simp [hk]), ih h.2]
    rfl

theorem assign_new {key : String} {entries : Entries} (h : key ∉ entries.map Prod.fst)
    (node : Node) :
    Document.assign ⟨⟨.header, entries⟩, []⟩ [key] node =
      some ⟨⟨.header, entries ++ [(key, node)]⟩, []⟩ := by
  have hfind : Scope.find? ⟨.header, entries⟩ key = none := by
    rw [Scope.find?, List.lookup_eq_none_iff]
    intro p hp
    have hne : key ≠ p.1 := by
      rintro rfl
      exact h (List.mem_map_of_mem hp)
    simpa using hne
  simp [Document.assign, Scope.within, Scope.assign, Scope.define, Scope.set, hfind, setEntry_new h]

/-- Reading statements of new keys adds their entries. The induction is on the statements; what it
carries is that no key comes twice, in the entries so far and the statements to come. -/
theorem readLines_render (stmts : List Statement) (entries : Entries)
    (h : (entries.map Prod.fst ++ stmts.map key).Nodup) :
    Document.readLines ⟨⟨.header, entries⟩, []⟩ (render stmts).toList =
      some ⟨⟨.header, entries ++ stmts.map entry⟩, []⟩ := by
  induction stmts generalizing entries with
  | nil =>
    rw [toList_render_nil, Document.readLines]
    simp [skipBlanks]
  | cons stmt stmts ih =>
    have hnew : stmt.key ∉ entries.map Prod.fst := by
      intro hmem
      exact (List.nodup_append.1 h).2.2 _ hmem _ (List.mem_cons_self ..) rfl
    have hrest : ((entries ++ [stmt.entry]).map Prod.fst ++ stmts.map key).Nodup := by
      simpa [entry] using h
    obtain ⟨c, tail, hc, hline⟩ := stmt.exists_line_eq_cons
    have hskip : skipBlanks (stmt.line ++ '\n' :: (render stmts).toList) =
        stmt.line ++ '\n' :: (render stmts).toList := by
      rw [hline]
      exact skipBlanks_cons (isBlank_of_isBare hc) _
    have hlong : stmt.line ++ '\n' :: (render stmts).toList ≠ [] := by simp
    have hshort : (render stmts).toList.length <
        (stmt.line ++ '\n' :: (render stmts).toList).length := by
      rw [List.length_append, List.length_cons]
      omega
    rw [toList_render_cons, Document.readLines, hskip, if_neg hlong, readLine_line,
      assign_new hnew]
    show (if _ < _ then _ else _) = _
    rw [if_pos hshort]
    refine (ih (entries ++ [stmt.entry]) hrest).trans ?_
    simp

/-- **The entries of a document of plain statements.** -/
theorem entries?_render {stmts : List Statement} (h : (stmts.map key).Nodup) :
    entries? (render stmts) = some (stmts.map entry) := by
  have hmark : skipByteOrderMark (render stmts).toList = (render stmts).toList := by
    cases stmts with
    | nil => rfl
    | cons stmt stmts =>
      obtain ⟨c, tail, hc, hline⟩ := stmt.exists_line_eq_cons
      have hne : c ≠ '\ufeff' := ne_of_class hc (by decide)
      rw [toList_render_cons, hline]
      simp [skipByteOrderMark, hne]
  rw [entries?, hmark]
  exact congrArg (Option.map _) (readLines_render stmts [] h)

end Statement

/-! ## Printing -/

theorem Spells.exists_spelling? {spelling : List Char} {node : Node} (h : Spells spelling node) :
    ∃ spelled, node.spelling? = some spelled := by
  cases h with
  | basic value hne hbasic => exact ⟨_, by rw [Node.spelling?, dif_pos hne, dif_pos hbasic]⟩
  | literal value hne hliteral =>
    by_cases hbasic : value.toList.all isBasic = true
    · exact ⟨_, by rw [Node.spelling?, dif_pos hne, dif_pos hbasic]⟩
    · exact ⟨_, by rw [Node.spelling?, dif_pos hne, dif_neg hbasic, dif_pos hliteral]⟩
  | decimal n fits => exact ⟨⟨_, .decimal n fits⟩, dif_pos fits⟩

theorem spelling?_large {n : Int} (large : 9223372036854775808 ≤ n) :
    (Node.integer n).spelling? = none := by
  cases n with
  | ofNat n =>
    have hlarge : ¬ n < 9223372036854775808 := by
      rw [Int.ofNat_eq_natCast] at large
      omega
    exact dif_neg hlarge
  | negSucc n => omega

namespace Statement

theorem ofPair?_entry (stmt : Statement) :
    ∃ printed, ofPair? stmt.entry = some printed ∧ printed.entry = stmt.entry := by
  obtain ⟨spelled, hspelled⟩ := stmt.spells.exists_spelling?
  have hprinted : ofPair? stmt.entry = some ⟨stmt.key, spelled.val, stmt.node, stmt.key_ne_nil,
      stmt.all_isBare, spelled.property⟩ := by
    rw [ofPair?, dif_pos ⟨stmt.key_ne_nil, stmt.all_isBare⟩]
    show Option.map _ stmt.node.spelling? = _
    rw [hspelled]
    rfl
  exact ⟨_, hprinted, rfl⟩

theorem mapM_ofPair? {entries : Entries}
    (h : ∀ entry ∈ entries, ∃ stmt : Statement, stmt.entry = entry) :
    ∃ stmts, entries.mapM ofPair? = some stmts ∧ stmts.map entry = entries := by
  induction entries with
  | nil => exact ⟨[], rfl, rfl⟩
  | cons first entries ih =>
    rw [List.forall_mem_cons] at h
    obtain ⟨⟨stmt, rfl⟩, hrest⟩ := h
    obtain ⟨printed, hprinted, hentry⟩ := stmt.ofPair?_entry
    obtain ⟨stmts, hstmts, hentries⟩ := ih hrest
    refine ⟨printed :: stmts, ?_, ?_⟩
    · simp [List.mapM_cons, hprinted, hstmts]
    · rw [List.map_cons, hentry, hentries]

theorem mapM_ofPair?_eq_none {entries : Entries} {entry : String × Node} (hmem : entry ∈ entries)
    (h : ofPair? entry = none) : entries.mapM ofPair? = none := by
  induction entries with
  | nil => cases hmem
  | cons first entries ih =>
    rw [List.mapM_cons]
    rcases List.mem_cons.1 hmem with rfl | hmem
    · rw [h]
      rfl
    · rw [ih hmem]
      cases ofPair? first <;> rfl

end Statement

/-- **The standard backend follows the laws of TOML.** -/
theorem Backend.followsToml_standard : Backend.standard.FollowsToml where
  read?_render _ hkeys := Statement.entries?_render hkeys
  print?_plain entries _ hplain := by
    obtain ⟨stmts, hstmts, hentries⟩ := Statement.mapM_ofPair? hplain
    refine ⟨stmts, hentries, ?_⟩
    show (entries.mapM Statement.ofPair?).map _ = _
    rw [hstmts, Option.map_some]
  print?_large entries key n hmem large := by
    have hnone : Statement.ofPair? (key, .integer n) = none := by
      unfold Statement.ofPair?
      split
      · exact congrArg (Option.map _) (spelling?_large large)
      · rfl
    show (entries.mapM Statement.ofPair?).map _ = _
    rw [Statement.mapM_ofPair?_eq_none hmem hnone, Option.map_none]

end ByteExact.Toml

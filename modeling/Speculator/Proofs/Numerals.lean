import Mathlib
import Speculator.Proofs.Catalog

/-!
# Numerals

The texts from which an integer can be read: a sign or none, and digits with single underscores between them
(`Numeral`), with blanks around it all.  Underscores are taken out before the sign is looked at, and each is checked
against the characters beside it.
-/

namespace Speculator.Number

open List

open Text (isBlank)

/-! ### The grammar of integers -/

/-- Digits with single underscores between them, and the digits alone. -/
inductive Numeral : List Char → List Char → Prop
  | last {c : Char} (h : isDigit c = true) : Numeral [c] [c]
  | digit {c : Char} {text digits : List Char} (h : isDigit c = true) (rest : Numeral text digits) :
    Numeral (c :: text) (c :: digits)
  | underscore {c : Char} {text digits : List Char} (h : isDigit c = true) (rest : Numeral text digits) :
    Numeral (c :: '_' :: text) (c :: digits)

def decimalValue (digits : List Char) : Nat := Nat.ofDigits 10 (digits.reverse.map fun c => c.toNat - '0'.toNat)

/-- A sign or none, and a numeral. -/
inductive IntegerText : List Char → Int → Prop
  | unsigned {text digits : List Char} (h : Numeral text digits) : IntegerText text (decimalValue digits)
  | plus {text digits : List Char} (h : Numeral text digits) : IntegerText ('+' :: text) (decimalValue digits)
  | minus {text digits : List Char} (h : Numeral text digits) : IntegerText ('-' :: text) (-decimalValue digits)

def WritesInt (text : String) (n : Int) : Prop :=
  ∃ before middle after, text.toList = before ++ middle ++ after ∧ (∀ c ∈ before ++ after, isBlank c = true) ∧
    IntegerText middle n

variable {c : Char} {before : Option Char} {text digits : List Char} {n : Int}

private theorem isDigit_iff : isDigit c = true ↔ 48 ≤ c.toNat ∧ c.toNat ≤ 57 := by
  rw [isDigit, Bool.and_eq_true, decide_eq_true_eq, decide_eq_true_eq]
  exact Iff.rfl

private theorem ne_of_isDigit (h : isDigit c = true) : c ≠ '_' ∧ c ≠ '-' ∧ c ≠ '+' := by
  refine ⟨?_, ?_, ?_⟩ <;>
  · rintro rfl
    exact absurd h (by decide)

private theorem isBlank_of_isDigit (h : isDigit c = true) : isBlank c = false := by
  rw [isDigit_iff] at h
  simp only [isBlank, Bool.or_eq_false_iff, Bool.and_eq_false_iff, decide_eq_false_iff_not, beq_eq_false_iff_ne]
  omega

theorem digitsValue_eq (digits : List Char) : digitsValue digits = decimalValue digits := by
  rw [decimalValue, Nat.ofDigits_eq_foldr, foldr_map, foldr_reverse, digitsValue]
  simp only [Nat.cast_id, Nat.add_comm]

/-! ### Underscores -/

theorem Numeral.isDigits (h : Numeral text digits) : digits.isEmpty = false ∧ digits.all isDigit = true := by
  induction h with
  | last h => simp [h]
  | digit h _ ih | underscore h _ ih => simp [h, ih.2]

private theorem Numeral.head (h : Numeral text digits) : ∃ c rest, text = c :: rest ∧ isDigit c = true := by
  cases h with
  | last h | digit h | underscore h => exact ⟨_, _, rfl, h⟩

private theorem dropUnderscores_cons (before : Option Char) (h : c ≠ '_') (text : List Char) :
    dropUnderscores before (c :: text) = (dropUnderscores (some c) text).map (c :: ·) := by
  rw [dropUnderscores, if_neg h]

private theorem Numeral.dropUnderscores (h : Numeral text digits) (before : Option Char) :
    Number.dropUnderscores before text = some digits := by
  induction h generalizing before with
  | last h => rw [dropUnderscores_cons _ (ne_of_isDigit h).1, Number.dropUnderscores, Option.map_some]
  | digit h _ ih => rw [dropUnderscores_cons _ (ne_of_isDigit h).1, ih, Option.map_some]
  | underscore h rest ih =>
    obtain ⟨d, tail, rfl, hd⟩ := rest.head
    rw [dropUnderscores_cons _ (ne_of_isDigit h).1, Number.dropUnderscores, if_pos rfl, if_pos (by simp [h, hd]), ih,
      Option.map_some]

private theorem numeral_cons (hc : isDigit c = true) (h : dropUnderscores (some c) text = some digits)
    (hdigits : digits.all isDigit = true) : Numeral (c :: text) (c :: digits) := by
  induction text generalizing c digits with
  | nil =>
    cases h
    exact .last hc
  | cons x text ih =>
    by_cases hx : x = '_'
    case pos =>
      subst hx
      rw [dropUnderscores, if_pos rfl] at h
      split at h
      case isTrue hbeside =>
        obtain ⟨d, hhead, hd⟩ := (Option.any_eq_true _ _).mp (Bool.and_eq_true_iff.mp hbeside).2
        obtain ⟨tail, rfl⟩ := head?_eq_some_iff.mp hhead
        -- a digit comes next, so it does not matter that an underscore stands before it
        rw [dropUnderscores_cons _ (ne_of_isDigit hd).1, ← dropUnderscores_cons (some c) (ne_of_isDigit hd).1] at h
        cases ih hc h hdigits with
        | digit _ rest => exact .underscore hc rest
        | underscore => exact absurd hd (by decide)
      case isFalse => cases h
    case neg =>
      rw [dropUnderscores_cons _ hx] at h
      obtain ⟨tail, htail, rfl⟩ := Option.map_eq_some_iff.mp h
      rw [all_cons, Bool.and_eq_true] at hdigits
      exact .digit hc (ih hdigits.1 htail hdigits.2)

/-- An underscore that does not follow a digit is refused, so the first character stays. -/
private theorem eq_cons_of_dropUnderscores (hbefore : before.any isDigit = false)
    (h : dropUnderscores before text = some (c :: digits)) :
    ∃ rest, text = c :: rest ∧ dropUnderscores (some c) rest = some digits := by
  cases text with
  | nil => cases h
  | cons x text =>
    rw [dropUnderscores, hbefore] at h
    split at h
    · cases h
    · obtain ⟨tail, htail, heq⟩ := Option.map_eq_some_iff.mp h
      cases heq
      exact ⟨text, rfl, htail⟩

private theorem numeral_of_dropUnderscores (hbefore : before.any isDigit = false)
    (h : dropUnderscores before text = some digits) (hne : digits.isEmpty = false)
    (hdigits : digits.all isDigit = true) :
    Numeral text digits := by
  cases digits with
  | nil => cases hne
  | cons c digits =>
    obtain ⟨rest, rfl, hrest⟩ := eq_cons_of_dropUnderscores hbefore h
    rw [all_cons, Bool.and_eq_true] at hdigits
    exact numeral_cons hdigits.1 hrest hdigits.2

private theorem toList_trim (text : String) :
    ∃ before after, text.toList = before ++ (Text.trim text).toList ++ after ∧
    ∀ c ∈ before ++ after, isBlank c = true := by
  rw [Text.trim, String.toList_ofList, Text.dropBlankEnd]
  generalize text.toList = cs
  refine ⟨cs.takeWhile isBlank, ((cs.dropWhile isBlank).reverse.takeWhile isBlank).reverse, ?_, ?_⟩
  · rw [append_assoc, ← reverse_append, takeWhile_append_dropWhile, reverse_reverse, takeWhile_append_dropWhile]
  · intro c hc
    rcases mem_append.mp hc with hc | hc
    · exact mem_takeWhile_imp hc
    · exact mem_takeWhile_imp (mem_reverse.mp hc)

private theorem dropWhile_isBlank {blanks rest : List Char} (h : ∀ c ∈ blanks, isBlank c = true)
    (hrest : ∀ c ∈ rest.head?, isBlank c = false) : (blanks ++ rest).dropWhile isBlank = rest := by
  rw [dropWhile_append_of_pos h]
  cases rest with
  | nil => rfl
  | cons c rest => rw [dropWhile_cons_of_neg (by simp [hrest c rfl])]

private theorem trim_eq {text : String} {before middle after : List Char}
    (h : text.toList = before ++ middle ++ after)
    (hblank : ∀ c ∈ before ++ after, isBlank c = true) (hne : middle ≠ [])
    (hhead : ∀ c ∈ middle.head?, isBlank c = false)
    (hlast : ∀ c ∈ middle.getLast?, isBlank c = false) : (Text.trim text).toList = middle := by
  simp only [mem_append, or_imp, forall_and] at hblank
  have hhead' : ∀ c ∈ (middle ++ after).head?, isBlank c = false := by
    rwa [head?_append_of_ne_nil _ hne]
  have hlast' : ∀ c ∈ middle.reverse.head?, isBlank c = false := by
    rwa [head?_reverse]
  rw [Text.trim, String.toList_ofList, Text.dropBlankEnd, h, append_assoc, dropWhile_isBlank hblank.1 hhead',
    reverse_append, dropWhile_isBlank (by simpa using hblank.2) hlast', reverse_reverse]

/-! ### Reading integers -/

private theorem splitSign_of_isDigits (h : digits.all isDigit = true) : splitSign digits = (false, digits) := by
  cases digits with
  | nil => rfl
  | cons c digits =>
    rw [all_cons, Bool.and_eq_true] at h
    obtain ⟨-, hminus, hplus⟩ := ne_of_isDigit h.1
    simp [splitSign, hminus, hplus]

private theorem splitSign_cases (cs : List Char) : (∃ ds, cs = '-' :: ds ∧ splitSign cs = (true, ds)) ∨
    (∃ ds, cs = '+' :: ds ∧ splitSign cs = (false, ds)) ∨ splitSign cs = (false, cs) := by
  rw [splitSign.eq_def]
  split
  · exact .inl ⟨_, rfl, rfl⟩
  · exact .inr (.inl ⟨_, rfl, rfl⟩)
  · exact .inr (.inr rfl)

private theorem readInt_eq_ok_iff_trim {text : String} :
    readInt text = .ok n ↔ IntegerText (Text.trim text).toList n := by
  unfold readInt numeralChars
  generalize (Text.trim text).toList = cs
  constructor
  · intro h
    split at h
    case h_1 => cases h
    case h_2 rest hrest =>
      obtain ⟨negative, digits, hsign⟩ : ∃ negative digits, splitSign rest = (negative, digits) := ⟨_, _, rfl⟩
      simp only [hsign, digitsValue_eq] at h
      split at h
      case isTrue => cases h
      case isFalse hdigits =>
        cases h
        simp only [Bool.or_eq_true, Bool.not_eq_true', not_or, Bool.not_eq_true, Bool.not_eq_false] at hdigits
        rcases splitSign_cases rest with ⟨_, rfl, hcase⟩ | ⟨_, rfl, hcase⟩ | hcase <;> cases hsign.symm.trans hcase
        · obtain ⟨text, rfl, htext⟩ := eq_cons_of_dropUnderscores rfl hrest
          exact .minus (numeral_of_dropUnderscores (by decide) htext hdigits.1 hdigits.2)
        · obtain ⟨text, rfl, htext⟩ := eq_cons_of_dropUnderscores rfl hrest
          exact .plus (numeral_of_dropUnderscores (by decide) htext hdigits.1 hdigits.2)
        · exact .unsigned (numeral_of_dropUnderscores rfl hrest hdigits.1 hdigits.2)
  · intro h
    cases h with
    | unsigned h =>
      simp [h.dropUnderscores, splitSign_of_isDigits h.isDigits.2, h.isDigits, digitsValue_eq]
    | plus h | minus h =>
      simp [dropUnderscores_cons, h.dropUnderscores, splitSign, h.isDigits, digitsValue_eq]

private theorem Numeral.getLast (h : Numeral text digits) : ∀ c ∈ text.getLast?, isDigit c = true := by
  induction h with
  | last h => simpa using h
  | digit _ rest ih | underscore _ rest ih =>
    obtain ⟨d, tail, rfl, -⟩ := rest.head
    simpa using ih

private theorem IntegerText.not_blank (h : IntegerText text n) : text ≠ [] ∧ (∀ c ∈ text.head?, isBlank c = false) ∧
    ∀ c ∈ text.getLast?, isBlank c = false := by
  have hlast : ∀ {numeral digits}, Numeral numeral digits → ∀ c ∈ numeral.getLast?, isBlank c = false :=
    fun h c hc => isBlank_of_isDigit (h.getLast c hc)
  cases h with
  | unsigned h =>
    refine ⟨?_, ?_, hlast h⟩ <;> obtain ⟨d, tail, rfl, hd⟩ := h.head
    · exact cons_ne_nil d tail
    · simpa using isBlank_of_isDigit hd
  | plus h | minus h =>
    refine ⟨cons_ne_nil _ _, by simp; decide, ?_⟩
    have := hlast h
    obtain ⟨d, tail, rfl, hd⟩ := h.head
    simpa using this

/-- Reading accepts the texts of the grammar and no others. -/
private theorem readInt_eq_ok_iff {text : String} : readInt text = .ok n ↔ WritesInt text n := by
  rw [readInt_eq_ok_iff_trim]
  constructor
  · intro h
    obtain ⟨before, after, htext, hblank⟩ := toList_trim text
    exact ⟨before, _, after, htext, hblank, h⟩
  · rintro ⟨before, middle, after, htext, hblank, h⟩
    obtain ⟨hne, hhead, hlast⟩ := h.not_blank
    rwa [trim_eq htext hblank hne hhead hlast]

/-! ### Integers that were written -/

private theorem numeral_of_isDigits (hne : digits ≠ []) (h : ∀ c ∈ digits, isDigit c = true) :
    Numeral digits digits := by
  induction digits with
  | nil => exact absurd rfl hne
  | cons c digits ih =>
    obtain ⟨hc, hdigits⟩ := forall_mem_cons.mp h
    cases digits with
    | nil => exact .last hc
    | cons d digits => exact .digit hc (ih (cons_ne_nil d digits) hdigits)

theorem numeral_toDigits (n : Nat) : Numeral (Nat.toDigits 10 n) (Nat.toDigits 10 n) := by
  refine numeral_of_isDigits Nat.toDigits_ne_nil fun c hc => ?_
  have hdigit : c.isDigit = true := Nat.isDigit_of_mem_toDigits (by omega) (by omega) hc
  exact hdigit

theorem decimalValue_toDigits (n : Nat) : decimalValue (Nat.toDigits 10 n) = n := by
  rw [← digitsValue_eq]
  exact Nat.ofDigitChars_ten_toDigits

private theorem writesInt_toString (n : Int) : WritesInt (toString n) n := by
  refine ⟨[], (toString n).toList, [], by simp, by simp, ?_⟩
  cases n with
  | ofNat n =>
    have h := IntegerText.unsigned (numeral_toDigits n)
    rw [decimalValue_toDigits] at h
    exact Nat.toList_repr ▸ h
  | negSucc n =>
    have h := IntegerText.minus (numeral_toDigits (n + 1))
    rw [decimalValue_toDigits] at h
    have htext : (toString (Int.negSucc n)).toList = '-' :: Nat.toDigits 10 (n + 1) := by
      change ("-" ++ Nat.repr (n + 1)).toList = _
      rw [String.toList_append, Nat.toList_repr]
      rfl
    rw [htext]
    exact h

private theorem evaluate_str_int (limits : Limits) (n : Int) : ∃ str int, Catalog.standard.builtin? "str" = some str ∧
    Catalog.standard.builtin? "int" = some int ∧ ∃ text, str.evaluate limits none [.int n] = .ok (some (.str text)) ∧
      int.evaluate limits none [.str text] = .ok (some (.int n)) := by
  obtain ⟨int, hint, happlies, hcall⟩ : ∃ int, Catalog.standard.builtin? "int" = some int ∧
      (∀ text, int.applies limits none [.str text] = true) ∧ int.call = Builtin.onFirst Builtin.int :=
    ⟨_, rfl, fun _ => rfl, rfl⟩
  have hread : Builtin.onFirst Builtin.int [.str (toString n)] = .ok (.int n) := by
    rw [Builtin.onFirst, argument_zero, ok_bind, Builtin.int, Builtin.textOf, ok_bind,
      readInt_eq_ok_iff.mpr (writesInt_toString n)]
    rfl
  refine ⟨_, int, rfl, hint, toString n, rfl, ?_⟩
  rw [(Builtin.keeps_contracts int (Catalog.mem_contracts_of_standard hint) limits _).evaluate_eq,
    happlies, if_pos rfl,
    hcall, Option.toList_none, nil_append, hread]
  rfl

/-- Reading an integer accepts the texts of the grammar and gives their values; any other text is a wrong value.  The
text of an integer is read back. -/
theorem readInt_grammar :
    (∀ text n, readInt text = .ok n ↔ WritesInt text n) ∧
      (∀ text, (¬∃ n, WritesInt text n) ↔ readInt text = .error .valueError) ∧
      ∀ limits n, ∃ str int, Catalog.standard.builtin? "str" = some str ∧ Catalog.standard.builtin? "int" = some int ∧
        ∃ text, str.evaluate limits none [.int n] = .ok (some (.str text)) ∧
          int.evaluate limits none [.str text] = .ok (some (.int n)) := by
  refine ⟨fun text n => readInt_eq_ok_iff, fun text => ?_, evaluate_str_int⟩
  simp only [← readInt_eq_ok_iff]
  cases h : readInt text with
  | ok n => simp
  | error fault =>
    have hfault := Builtin.raises_readInt text fault h
    simpa using hfault

end Speculator.Number

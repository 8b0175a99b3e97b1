import Mathlib.Data.List.TakeWhile
import Speculator.Tree.Render

/-!
# Tokens

How a text is cut into names, reserved words, numbers and symbols.  Outside of ASCII it is left open which characters
names are made of: an `Alphabet` says so.

`ReadsBefore p cs ts` says that the characters `cs` are read as the tokens `ts` in front of every character that meets
`p`.  What can go wrong between two pieces of text is checked where they meet.
-/

namespace Speculator.Grammar

open List

/-- The characters that names start with and those that they go on with. -/
structure Alphabet where
  starts : Char → Bool
  continues : Char → Bool
  continues_of_starts : ∀ c, starts c = true → continues c = true
  starts_ascii : ∀ c : Char, c.toNat < 128 → starts c = (c.isAlpha || c == '_')
  continues_ascii : ∀ c : Char, c.toNat < 128 → continues c = (c.isAlphanum || c == '_')

/-- The alphabet without characters outside of ASCII. -/
def Alphabet.ascii : Alphabet where
  starts c := decide (c.toNat < 128) && (c.isAlpha || c == '_')
  continues c := decide (c.toNat < 128) && (c.isAlphanum || c == '_')
  continues_of_starts c h := by simp_all [Char.isAlphanum]; grind
  starts_ascii c h := by simp [h]
  continues_ascii c h := by simp [h]

/-- The words that are no names.  The ones that no expression here is made of are kept as their text. -/
inductive Reserved where
  | and
  | or
  | not
  | is
  | isIn
  | ifThen
  | orElse
  | lambda
  | await
  | other (text : String)
deriving DecidableEq, Repr

def Reserved.text : Reserved → String
  | .and => "and"
  | .or => "or"
  | .not => "not"
  | .is => "is"
  | .isIn => "in"
  | .ifThen => "if"
  | .orElse => "else"
  | .lambda => "lambda"
  | .await => "await"
  | .other text => text

def Reserved.all : List Reserved :=
  [.and, .or, .not, .is, .isIn, .ifThen, .orElse, .lambda, .await] ++
    ["False", "None", "True", "as", "assert", "async", "break", "class", "continue", "def", "del", "elif", "except",
      "finally", "for", "from", "global", "import", "nonlocal", "pass", "raise", "return", "try", "while", "with",
      "yield"].map .other

inductive Symbol where
  | plus
  | minus
  | star
  | slash
  | doubleSlash
  | percent
  | at
  | doubleStar
  | leftShift
  | rightShift
  | bar
  | caret
  | ampersand
  | tilde
  | less
  | lessEqual
  | greater
  | greaterEqual
  | equal
  | notEqual
  | openParen
  | closeParen
  | openBracket
  | closeBracket
  | comma
  | colon
  | dot
  | other (text : List Char)
deriving DecidableEq, Repr

def Symbol.text : Symbol → List Char
  | .plus => ['+']
  | .minus => ['-']
  | .star => ['*']
  | .slash => ['/']
  | .doubleSlash => ['/', '/']
  | .percent => ['%']
  | .at => ['@']
  | .doubleStar => ['*', '*']
  | .leftShift => ['<', '<']
  | .rightShift => ['>', '>']
  | .bar => ['|']
  | .caret => ['^']
  | .ampersand => ['&']
  | .tilde => ['~']
  | .less => ['<']
  | .lessEqual => ['<', '=']
  | .greater => ['>']
  | .greaterEqual => ['>', '=']
  | .equal => ['=', '=']
  | .notEqual => ['!', '=']
  | .openParen => ['(']
  | .closeParen => [')']
  | .openBracket => ['[']
  | .closeBracket => [']']
  | .comma => [',']
  | .colon => [':']
  | .dot => ['.']
  | .other text => text

def Symbol.all : List Symbol :=
  [.other ['*', '*', '='], .other ['/', '/', '='], .other ['<', '<', '='], .other ['>', '>', '='],
    .other ['.', '.', '.'],
    .doubleStar, .doubleSlash, .leftShift, .rightShift, .lessEqual, .greaterEqual, .equal, .notEqual,
    .other ['-', '>'], .other ['+', '='], .other ['-', '='], .other ['*', '='], .other ['/', '='], .other ['%', '='],
    .other ['@', '='], .other ['&', '='], .other ['|', '='], .other ['^', '='], .other [':', '='],
    .plus, .minus, .star, .slash, .percent, .at, .bar, .caret, .ampersand, .tilde, .less, .greater, .openParen,
    .closeParen, .openBracket, .closeBracket, .comma, .colon, .dot,
    .other ['='], .other [';'], .other ['\x7b'], .other ['\x7d']]

def Symbol.first? (cs : List Char) : Option Symbol := Symbol.all.find? fun s => s.text.isPrefixOf cs

inductive Token where
  | name (id : Ident)
  | reserved (word : Reserved)
  | number (value : Nat)
  | symbol (s : Symbol)
deriving DecidableEq, Repr

def Reserved.ofText? (text : String) : Option Reserved := Reserved.all.find? fun w => w.text == text

def Token.ofWord (text : String) : Token :=
  match Reserved.ofText? text with
  | some w => .reserved w
  | none => .name text

/-- Whether digits are a number: without zeros in front, unless all are zeros, and with neither a point nor a letter
behind. -/
def isNumeral (A : Alphabet) (digits rest : List Char) : Bool :=
  (Nat.toDigits 10 (Nat.ofDigitChars 10 digits 0) == digits || digits.all (· == '0')) &&
    rest.head?.all fun c => c != '.' && !A.continues c

def Alphabet.tokens (A : Alphabet) : List Char → Option (List Token)
  | [] => some []
  | c :: cs =>
    if c = ' ' then A.tokens cs
    else if A.starts c then
      (A.tokens (cs.dropWhile A.continues)).map (Token.ofWord (String.ofList (c :: cs.takeWhile A.continues)) :: ·)
    else if c.isDigit then
      let digits := c :: cs.takeWhile Char.isDigit
      if isNumeral A digits (cs.dropWhile Char.isDigit) then
        (A.tokens (cs.dropWhile Char.isDigit)).map (.number (Nat.ofDigitChars 10 digits 0) :: ·)
      else none
    else
      match Symbol.first? (c :: cs) with
      | some s => (A.tokens (cs.drop (s.text.length - 1))).map (.symbol s :: ·)
      | none => none
termination_by cs => cs.length
decreasing_by
  · simp
  · exact Nat.lt_succ_of_le (length_dropWhile_le ..)
  · exact Nat.lt_succ_of_le (length_dropWhile_le ..)
  · simp only [length_drop, length_cons]; omega

def Alphabet.IsWord (A : Alphabet) (text : String) : Prop :=
  ∃ c cs, text.toList = c :: cs ∧ A.starts c = true ∧ ∀ x ∈ cs, A.continues x = true

def Alphabet.IsName (A : Alphabet) (id : Ident) : Prop := A.IsWord id ∧ Reserved.ofText? id = none

variable {A : Alphabet}

/-! ## Single tokens -/

theorem tokens_blank (rest : List Char) : A.tokens (' ' :: rest) = A.tokens rest := by
  rw [Alphabet.tokens, if_pos rfl]

variable {c : Char} {rest : List Char}

theorem isDigit_bounds (h : c.isDigit = true) : 48 ≤ c.toNat ∧ c.toNat ≤ 57 := by
  simp only [Char.isDigit, Bool.and_eq_true, decide_eq_true_eq, UInt32.le_iff_toNat_le, ge_iff_le] at h
  exact h

theorem starts_of_isDigit (h : c.isDigit = true) : A.starts c = false ∧ c ≠ ' ' := by
  have hb := isDigit_bounds h
  have halpha : c.isAlpha = false := by
    rw [← Bool.not_eq_true]
    change ¬((decide (c.val ≥ 65 ∧ c.val ≤ 90) || (decide (c.val ≥ 97) && decide (c.val ≤ 122))) = true)
    simp only [Bool.or_eq_true, Bool.and_eq_true, decide_eq_true_eq, UInt32.le_iff_toNat_le, ge_iff_le]
    change ¬((65 ≤ c.toNat ∧ c.toNat ≤ 90) ∨ (97 ≤ c.toNat ∧ c.toNat ≤ 122))
    omega
  constructor
  · rw [A.starts_ascii c (by omega), halpha, Bool.false_or, beq_eq_false_iff_ne]
    rintro rfl
    exact absurd hb.2 (by decide)
  · rintro rfl
    exact absurd hb.1 (by decide)

theorem span_stop {p : Char → Bool} (h : ∀ c ∈ rest.head?, p c = false) :
    rest.dropWhile p = rest ∧ rest.takeWhile p = [] := by
  cases rest with
  | nil => exact ⟨rfl, rfl⟩
  | cons c rest => simp [h c rfl]

theorem tokens_word {text : String} (h : A.IsWord text) (hr : ∀ c ∈ rest.head?, A.continues c = false) :
    A.tokens (text.toList ++ rest) = (A.tokens rest).map (Token.ofWord text :: ·) := by
  obtain ⟨c, cs, ht, hc, hcs⟩ := h
  obtain ⟨hdrop, htake⟩ := span_stop hr
  have hblank : c ≠ ' ' := by
    rintro rfl
    rw [A.starts_ascii ' ' (by decide)] at hc
    exact absurd hc (by decide)
  rw [ht, cons_append, Alphabet.tokens, if_neg hblank, if_pos hc, dropWhile_append_of_pos hcs, hdrop,
    takeWhile_append_of_pos hcs, htake, append_nil, ← ht, String.ofList_toList]

theorem tokens_number (n : Nat) (hr : ∀ c ∈ rest.head?, c ≠ '.' ∧ A.continues c = false) :
    A.tokens (Nat.toDigits 10 n ++ rest) = (A.tokens rest).map (.number n :: ·) := by
  have hd : ∀ c ∈ Nat.toDigits 10 n, c.isDigit = true :=
    fun c hc => Nat.isDigit_of_mem_toDigits (by omega) (by omega) hc
  have hv : Nat.ofDigitChars 10 (Nat.toDigits 10 n) 0 = n := Nat.ofDigitChars_ten_toDigits
  obtain ⟨d, ds, hds⟩ := exists_cons_of_ne_nil (Nat.toDigits_ne_nil (n := n) (b := 10))
  rw [hds] at hd hv
  have hstop : ∀ c ∈ rest.head?, c.isDigit = false := by
    intro c hc
    by_contra hdigit
    rw [Bool.not_eq_false] at hdigit
    have hcont := (hr c hc).2
    rw [A.continues_ascii c (by have := isDigit_bounds hdigit; omega), Char.isAlphanum, hdigit] at hcont
    simp at hcont
  obtain ⟨hdrop, htake⟩ := span_stop hstop
  have hnum : isNumeral A (d :: ds) rest = true := by
    rw [isNumeral, hv, hds]
    cases rest with
    | nil => simp
    | cons r rest => simp [hr r rfl]
  obtain ⟨hstart, hblank⟩ := starts_of_isDigit (A := A) (hd d (by simp))
  have hcs : ∀ x ∈ ds, x.isDigit = true := fun x hx => hd x (by simp [hx])
  rw [hds, cons_append, Alphabet.tokens, if_neg hblank, if_neg (by simp [hstart]), if_pos (hd d (by simp)),
    dropWhile_append_of_pos hcs, hdrop, takeWhile_append_of_pos hcs, htake, append_nil]
  simp only [hnum, if_true, hv]

theorem symbol_text_cons {s} (hs : s ∈ Symbol.all) : ∃ c cs, s.text = c :: cs ∧ c.toNat < 128 ∧
    c ≠ ' ' ∧ c.isAlphanum = false ∧ c ≠ '_' := by
  have hall : ∀ s ∈ Symbol.all, (s.text.head?.any fun c => decide (c.toNat < 128 ∧ c ≠ ' ' ∧
      c.isAlphanum = false ∧ c ≠ '_')) = true := by
    decide +kernel
  obtain ⟨c, hhead, hc⟩ := (Option.any_eq_true _ _).1 (hall s hs)
  obtain ⟨cs, ht⟩ := head?_eq_some_iff.1 hhead
  exact ⟨c, cs, ht, of_decide_eq_true hc⟩

theorem tokens_symbol {s} (hs : Symbol.first? (s.text ++ rest) = some s) :
    A.tokens (s.text ++ rest) = (A.tokens rest).map (.symbol s :: ·) := by
  obtain ⟨c, cs, ht, hascii, hblank, halnum, hline⟩ := symbol_text_cons (mem_of_find?_eq_some hs)
  have hlen : s.text.length - 1 = cs.length := by rw [ht]; rfl
  simp only [Char.isAlphanum, Bool.or_eq_false_iff] at halnum
  have hstart : A.starts c = false := by rw [A.starts_ascii c hascii]; simp [halnum.1, hline]
  rw [ht, cons_append] at hs ⊢
  rw [Alphabet.tokens, if_neg hblank, if_neg (by simp [hstart]), if_neg (by simp [halnum.2]), hs]
  simp only [hlen, drop_left]

/-! ## Pieces of text -/

/-- The characters are read as the tokens in front of all characters that meet the condition, and at the end. -/
def Alphabet.ReadsBefore (A : Alphabet) (p : Char → Prop) (cs : List Char) (ts : List Token) : Prop :=
  ∀ rest, (∀ c ∈ rest.head?, p c) → A.tokens (cs ++ rest) = (A.tokens rest).map (ts ++ ·)

/-- The characters that stand behind an expression of any kind. -/
def Boundary (c : Char) : Prop := c ∈ [' ', '(', ')', '[', ']', ',', ':']

/-- A point stands behind an expression too, unless that is a number. -/
def BoundaryOrDot (c : Char) : Prop := Boundary c ∨ c = '.'

def Alphabet.Opens (A : Alphabet) (c : Char) : Prop :=
  A.starts c = true ∨ c.isDigit = true ∨ c ∈ ['(', '[', '+', '-', '~']

theorem continues_of_boundaryOrDot (h : BoundaryOrDot c) : A.continues c = false := by
  have hascii : ∀ d ∈ [' ', '(', ')', '[', ']', ',', ':', '.'], d.toNat < 128 ∧
      (d.isAlphanum || d == '_') = false := by
    simp only [forall_mem_cons, not_mem_nil, false_imp_iff, implies_true]
    decide
  obtain ⟨hlt, hno⟩ := hascii c (by simpa [BoundaryOrDot, Boundary, or_assoc] using h)
  rw [A.continues_ascii c hlt, hno]

theorem Alphabet.Opens.ne (h : A.Opens c) : c ≠ '=' ∧ c ≠ '>' ∧ c ≠ '.' := by
  have hascii : ∀ d ∈ ['=', '>', '.'], d.toNat < 128 ∧ (d.isAlpha || d == '_') = false ∧ d.isDigit = false ∧
      d ∉ ['(', '[', '+', '-', '~'] := by
    simp only [forall_mem_cons, not_mem_nil, false_imp_iff, implies_true]
    decide
  have hne : ∀ d ∈ ['=', '>', '.'], c ≠ d := by
    rintro d hd rfl
    obtain ⟨hlt, hno, hdigit, hmem⟩ := hascii c hd
    rcases h with h | h | h
    · rw [A.starts_ascii c hlt, hno] at h
      cases h
    · simp [hdigit] at h
    · exact hmem h
  exact ⟨hne _ (by simp), hne _ (by simp), hne _ (by simp)⟩

namespace Alphabet.ReadsBefore

variable {p q : Char → Prop} {cs ds : List Char} {ts us : List Token}

theorem mono (h : A.ReadsBefore p cs ts) (hpq : ∀ c, q c → p c) : A.ReadsBefore q cs ts :=
  fun rest hrest => h rest fun c hc => hpq c (hrest c hc)

theorem nil : A.ReadsBefore p [] [] := fun rest _ => by simp

theorem blank : A.ReadsBefore p [' '] [] := fun rest _ => by simp [tokens_blank]

theorem number (n : Nat) : A.ReadsBefore Boundary (Nat.toDigits 10 n) [.number n] := by
  intro rest hrest
  refine tokens_number n fun c hc => ⟨?_, continues_of_boundaryOrDot (.inl (hrest c hc))⟩
  rintro rfl
  simpa [Boundary] using hrest _ hc

theorem word {text : String} (h : A.IsWord text) : A.ReadsBefore BoundaryOrDot text.toList [Token.ofWord text] :=
  fun _ hrest => tokens_word h fun c hc => continues_of_boundaryOrDot (hrest c hc)

theorem symbol {s} (hend : Symbol.first? s.text = some s)
    (h : ∀ c rest, p c → Symbol.first? (s.text ++ c :: rest) = some s) : A.ReadsBefore p s.text [.symbol s] := by
  intro rest hrest
  refine tokens_symbol ?_
  cases rest with
  | nil => rwa [append_nil]
  | cons c rest => exact h c rest (hrest c rfl)

/-- Two pieces are read one after the other, if the second one begins as the first one allows. -/
theorem append (h : A.ReadsBefore p cs ts) {d : Char} (h' : A.ReadsBefore q (d :: ds) us) (hd : p d) :
    A.ReadsBefore q (cs ++ d :: ds) (ts ++ us) := by
  intro rest hrest
  rw [append_assoc, h _ (by simp [hd]), h' rest hrest, Option.map_map]
  congr 1
  funext r
  simp

theorem append_of_any (h : A.ReadsBefore (fun _ => True) cs ts) (h' : A.ReadsBefore q ds us) :
    A.ReadsBefore q (cs ++ ds) (ts ++ us) := by
  intro rest hrest
  rw [append_assoc, h _ (by simp), h' rest hrest, Option.map_map]
  congr 1
  funext r
  simp

theorem spaced {ms : List Char} {vs} (h : A.ReadsBefore Boundary cs ts)
    (hm : A.ReadsBefore (· = ' ') ms vs) (h' : A.ReadsBefore q ds us) :
    A.ReadsBefore q (cs ++ ' ' :: (ms ++ ' ' :: ds)) (ts ++ (vs ++ us)) := by
  have hright : A.ReadsBefore q (ms ++ ' ' :: ds) (vs ++ us) := hm.append (blank.append_of_any h') rfl
  exact h.append (blank.append_of_any hright) (by simp [Boundary])

theorem intercalate {α : Type} {d : Char} (hsep : A.ReadsBefore (fun _ => True) (d :: ds) us) (hd : Boundary d)
    {f : α → List Char} {g : α → List Token} : ∀ {items : List α},
    (∀ x ∈ items, A.ReadsBefore Boundary (f x) (g x)) →
    A.ReadsBefore Boundary (List.intercalate (d :: ds) (items.map f)) (List.intercalate us (items.map g))
  | [], _ => nil
  | [x], h => by simpa using h x (by simp)
  | x :: y :: items, h => by
    have hrest : A.ReadsBefore Boundary (List.intercalate (d :: ds) ((y :: items).map f))
        (List.intercalate us ((y :: items).map g)) :=
      hsep.intercalate hd fun z hz => h z (mem_cons_of_mem _ hz)
    simpa using (h x (by simp)).append (hsep.append_of_any hrest) hd

end Alphabet.ReadsBefore

end Speculator.Grammar

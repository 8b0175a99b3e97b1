import Mathlib
import Speculator.Proofs.Catalog

/-!
# Reading quoted text

How a literal is read: it ends at the first delimiter that no backslash escapes (`splitUnescaped`), and a backslash
stands, with the characters behind it, for one character (`unescape`).  The quoted form of a text is read back as the
text, whatever is shown of the characters beyond ASCII (`quoted_literals`).

Each character is written as a piece of text that neither closes the literal nor depends on what follows
(`Stands`); the rest is put together from the pieces.
-/

namespace Speculator.Text

open List

variable {width n : Nat} {cs : List Char} {shown : Char → Bool}

/-! ### How a literal is read -/

def splitUnescaped (quote : Char) : List Char → Option (List Char × List Char)
  | [] => none
  | [c] => if c = quote then some ([], []) else none
  | c :: d :: cs =>
    if c = '\\' then (splitUnescaped quote cs).map fun split => (c :: d :: split.1, split.2)
    else if c = quote then some ([], d :: cs)
    else (splitUnescaped quote (d :: cs)).map fun split => (c :: split.1, split.2)

def hexDigit? (c : Char) : Option Nat :=
  let n := c.toNat
  if 0x30 ≤ n ∧ n ≤ 0x39 then some (n - 0x30)
  else if 0x41 ≤ n ∧ n ≤ 0x46 then some (n - 0x37)
  else if 0x61 ≤ n ∧ n ≤ 0x66 then some (n - 0x57)
  else none

def hexValue? (digits : List Char) : Option Nat :=
  digits.foldlM (fun n c => (hexDigit? c).map fun d => 16 * n + d) 0

/-- The character with the code point in a number of hexadecimal digits, and the text behind them. -/
def codePoint? (width : Nat) (cs : List Char) : Option (Char × List Char) :=
  if (cs.take width).length = width then
    (hexValue? (cs.take width)).bind fun n => if n.isValidChar then some (Char.ofNat n, cs.drop width) else none
  else none

/-- The character for which an escape stands, read behind its backslash, and the text behind it.  Code points of more
than two digits are for `wide` literals only. -/
def escape? (wide : Bool) : List Char → Option (Char × List Char)
  | '\\' :: cs => some ('\\', cs)
  | '\x27' :: cs => some ('\x27', cs)
  | '\x22' :: cs => some ('\x22', cs)
  | 't' :: cs => some ('\t', cs)
  | 'n' :: cs => some ('\n', cs)
  | 'r' :: cs => some ('\r', cs)
  | 'x' :: cs => codePoint? 2 cs
  | 'u' :: cs => if wide then codePoint? 4 cs else none
  | 'U' :: cs => if wide then codePoint? 8 cs else none
  | _ => none

private theorem length_codePoint? {rest : List Char} {c : Char} (h : codePoint? width cs = some (c, rest)) :
    rest.length ≤ cs.length := by
  unfold codePoint? at h
  split at h
  · obtain ⟨n, -, hn⟩ := Option.bind_eq_some_iff.mp h
    split at hn <;> cases hn
    simp
  · cases h

private theorem length_escape? {wide : Bool} {rest : List Char} {c : Char} (h : escape? wide cs = some (c, rest)) :
    rest.length ≤ cs.length := by
  unfold escape? at h
  split at h
  case h_7 => exact Nat.le_succ_of_le (length_codePoint? h)
  case h_8 | h_9 =>
    split at h
    · exact Nat.le_succ_of_le (length_codePoint? h)
    · cases h
  case h_10 => cases h
  all_goals
    cases h
    simp

/-- The characters for which the inside of a literal stands; those beyond ASCII are for `wide` literals only. -/
def unescape (wide : Bool) : List Char → Option (List Char)
  | [] => some []
  | c :: cs =>
    if c = '\\' then
      match _h : escape? wide cs with
      | some (d, rest) => (unescape wide rest).map (d :: ·)
      | none => none
    else if wide || decide (c.toNat < 0x80) then (unescape wide cs).map (c :: ·)
    else none
termination_by cs => cs.length
decreasing_by
  · exact Nat.lt_succ_of_le (length_escape? _h)
  · simp

def unescapeBytes (body : List Char) : Option (List UInt8) :=
  (unescape false body).map fun cs => cs.map fun c => UInt8.ofNat c.toNat

/-- The control characters and the separators of lines and paragraphs. -/
def IsControl (c : Char) : Prop :=
  c.toNat < 0x20 ∨ 0x7f ≤ c.toNat ∧ c.toNat ≤ 0x9f ∨ c.toNat = 0x2028 ∨ c.toNat = 0x2029

instance : DecidablePred IsControl := fun _ => inferInstanceAs (Decidable (_ ∨ _))

def IsDelimiter (quote : Char) : Prop := quote = '\x27' ∨ quote = '\x22'

/-- The text is a literal of a value: it has no control characters, the first delimiter that is not escaped ends it,
and what is between the delimiters is read as the value. -/
def IsLiteral {α : Type} (read : List Char → Option α) (text : List Char) (value : α) : Prop :=
  ∃ quote body, IsDelimiter quote ∧ text = quote :: (body ++ [quote]) ∧
    splitUnescaped quote (body ++ [quote]) = some (body, []) ∧ read body = some value ∧ ∀ c ∈ text, ¬IsControl c

/-! ### Pieces of a literal -/

variable {wide : Bool} {quote c d : Char} {tail : List Char}

private theorem splitUnescaped_plain (hback : c ≠ '\\') (hquote : c ≠ quote) (rest : List Char) :
    splitUnescaped quote (c :: rest) = (splitUnescaped quote rest).map fun split => (c :: split.1, split.2) := by
  cases rest with
  | nil => simp [splitUnescaped, hquote]
  | cons d rest => rw [splitUnescaped, if_neg hback, if_neg hquote]

private theorem splitUnescaped_append {piece : List Char} (h : ∀ x ∈ piece, x ≠ '\\' ∧ x ≠ quote) (rest : List Char) :
    splitUnescaped quote (piece ++ rest) =
      (splitUnescaped quote rest).map fun split => (piece ++ split.1, split.2) := by
  induction piece with
  | nil => simp
  | cons x piece ih =>
    obtain ⟨hx, hpiece⟩ := forall_mem_cons.mp h
    rw [cons_append, splitUnescaped_plain hx.1 hx.2, ih hpiece, Option.map_map]
    rfl

/-- The piece is read as one character, in front of whatever follows, and does not close the literal. -/
structure Stands (wide : Bool) (quote : Char) (piece : List Char) (c : Char) : Prop where
  split : ∀ rest, splitUnescaped quote (piece ++ rest) =
    (splitUnescaped quote rest).map fun split => (piece ++ split.1, split.2)
  reads : ∀ rest, unescape wide (piece ++ rest) = (unescape wide rest).map (c :: ·)
  visible : ∀ x ∈ piece, ¬IsControl x

private theorem stands_plain (hback : c ≠ '\\') (hquote : c ≠ quote) (hwide : wide = true ∨ c.toNat < 0x80)
    (hvisible : ¬IsControl c) : Stands wide quote [c] c where
  split := splitUnescaped_append (by simp [hback, hquote])
  reads rest := by
    rw [singleton_append, unescape, if_neg hback, if_pos (by simpa using hwide)]
  visible := by simpa using hvisible

private theorem stands_escape (htail : ∀ x ∈ tail, x ≠ '\\' ∧ x ≠ quote)
    (hreads : ∀ rest, escape? wide (d :: (tail ++ rest)) = some (c, rest))
    (hvisible : ∀ x ∈ d :: tail, ¬IsControl x) : Stands wide quote ('\\' :: d :: tail) c where
  split rest := by
    rw [cons_append, cons_append, splitUnescaped, if_pos rfl, splitUnescaped_append htail, Option.map_map]
    rfl
  reads rest := by
    rw [cons_append, cons_append, unescape, if_pos rfl]
    split
    · rename_i heq
      cases (hreads rest).symm.trans heq
      rfl
    · rename_i heq
      cases (hreads rest).symm.trans heq
  visible := forall_mem_cons.mpr ⟨by decide, hvisible⟩

private theorem isLiteral_pieces {α : Type} {read : List Char → Option α} {value : α} {f : Char → List Char}
    (hquote : IsDelimiter quote) (h : ∀ c ∈ cs, Stands wide quote (f c) c)
    (hread : ∀ body, unescape wide body = some cs → read body = some value) :
    IsLiteral read (quote :: (cs.flatMap f ++ [quote])) value := by
  have hpieces : splitUnescaped quote (cs.flatMap f ++ [quote]) = some (cs.flatMap f, []) ∧
      unescape wide (cs.flatMap f) = some cs ∧ ∀ x ∈ cs.flatMap f, ¬IsControl x := by
    clear hread
    induction cs with
    | nil => exact ⟨by simp [splitUnescaped], by simp [unescape], by simp⟩
    | cons c cs ih =>
      obtain ⟨hc, hcs⟩ := forall_mem_cons.mp h
      obtain ⟨hsplit, hreads, hvisible⟩ := ih hcs
      refine ⟨?_, ?_, ?_⟩
      · rw [flatMap_cons, append_assoc, hc.split, hsplit, Option.map_some]
      · rw [flatMap_cons, hc.reads, hreads, Option.map_some]
      · rw [flatMap_cons, forall_mem_append]
        exact ⟨hc.visible, hvisible⟩
  obtain ⟨hsplit, hreads, hvisible⟩ := hpieces
  refine ⟨quote, _, hquote, rfl, hsplit, hread _ hreads, ?_⟩
  have hq : ¬IsControl quote := by rcases hquote with rfl | rfl <;> decide
  simpa [hq, or_imp, forall_and] using hvisible

/-! ### Code points -/

private theorem hexDigits_succ (hwidth : 0 < width) (n : Nat) :
    hexDigits (width + 1) n = hexDigits width (n / 16) ++ [Nat.digitChar (n % 16)] := by
  by_cases hn : n < 16
  · obtain ⟨k, rfl⟩ : ∃ k, width = k + 1 := ⟨width - 1, by omega⟩
    simp only [hexDigits, Nat.toDigits_of_lt_base hn, Nat.div_eq_of_lt hn, Nat.mod_eq_of_lt hn, Nat.toDigits_zero,
      length_singleton]
    rw [Nat.add_sub_cancel, Nat.add_sub_cancel, replicate_succ']
  · have hsplit := Nat.toDigits_append_toDigits (b := 16) (n := n / 16) (d := n % 16) (by omega) (by omega) (by omega)
    rw [Nat.div_add_mod, Nat.toDigits_of_lt_base (Nat.mod_lt n (by omega))] at hsplit
    simp only [hexDigits, ← hsplit, length_append, length_singleton, append_assoc]
    congr 2
    omega

private theorem length_hexDigits (hwidth : 0 < width) (hn : n < 16 ^ width) :
    (hexDigits width n).length = width := by
  have hlength := (Nat.length_toDigits_le_iff (b := 16) (by omega) hwidth).mpr hn
  simp only [hexDigits, length_append, length_replicate]
  omega

private theorem hexDigits_one (hn : n < 16) : hexDigits 1 n = [Nat.digitChar n] := by
  simp [hexDigits, Nat.toDigits_of_lt_base hn]

private theorem hexValue?_hexDigits (hwidth : 0 < width) (hn : n < 16 ^ width) :
    hexValue? (hexDigits width n) = some n := by
  have hdigit : ∀ d < 16, hexDigit? (Nat.digitChar d) = some d := by decide
  induction width, hwidth using Nat.le_induction generalizing n with
  | base => simp [hexDigits_one hn, hexValue?, hdigit n hn]
  | succ width hwidth ih =>
    have hrest := ih (n := n / 16) (by omega)
    unfold hexValue? at hrest ⊢
    rw [hexDigits_succ hwidth, foldlM_append, hrest]
    simp [hdigit (n % 16) (Nat.mod_lt n (by omega)), Nat.div_add_mod]

private theorem forall_mem_hexDigits {P : Char → Prop} (hwidth : 0 < width) (hn : n < 16 ^ width)
    (h : ∀ d < 16, P (Nat.digitChar d)) : ∀ x ∈ hexDigits width n, P x := by
  induction width, hwidth using Nat.le_induction generalizing n with
  | base => simpa [hexDigits_one hn] using h n hn
  | succ width hwidth ih =>
    rw [hexDigits_succ hwidth, forall_mem_append, forall_mem_singleton]
    exact ⟨ih (by omega), h _ (Nat.mod_lt n (by omega))⟩

private theorem codePoint?_hexDigits (hwidth : 0 < width) (hc : c.toNat < 16 ^ width) (rest : List Char) :
    codePoint? width (hexDigits width c.toNat ++ rest) = some (c, rest) := by
  have hlength := length_hexDigits hwidth hc
  have hvalid : c.toNat.isValidChar := c.valid
  rw [codePoint?, take_left' hlength, drop_left' hlength, if_pos hlength, hexValue?_hexDigits hwidth hc,
    Option.bind_some, if_pos hvalid, Char.ofNat_toNat]

private theorem stands_codePoint {mark : Char} (hwidth : 0 < width) (hc : c.toNat < 16 ^ width)
    (hquote : IsDelimiter quote)
    (hmark : ¬IsControl mark) (hreads : ∀ cs, escape? wide (mark :: cs) = codePoint? width cs) :
    Stands wide quote ('\\' :: mark :: hexDigits width c.toNat) c := by
  have hdigits : ∀ x ∈ hexDigits width c.toNat, x ≠ '\\' ∧ x ≠ quote ∧ ¬IsControl x :=
    forall_mem_hexDigits hwidth hc (by rcases hquote with rfl | rfl <;> decide)
  refine stands_escape (fun x hx => ⟨(hdigits x hx).1, (hdigits x hx).2.1⟩) (fun rest => ?_)
    (forall_mem_cons.mpr ⟨hmark, fun x hx => (hdigits x hx).2.2⟩)
  rw [hreads, codePoint?_hexDigits hwidth hc]

theorem toNat_lt (c : Char) : c.toNat < 0x110000 := by
  have hvalid := c.valid
  simp only [UInt32.isValidChar, Nat.isValidChar] at hvalid
  change c.val.toNat < _
  omega

private theorem ascii_escapeCode (c : Char) : ∀ x ∈ escapeCode c.toNat, x.toNat < 0x80 := by
  have hdigits : ∀ {width : Nat}, 0 < width → c.toNat < 16 ^ width → ∀ x ∈ hexDigits width c.toNat, x.toNat < 0x80 :=
    fun hwidth hc => forall_mem_hexDigits hwidth hc (by decide)
  have hmost := toNat_lt c
  unfold escapeCode
  split
  case isTrue h => simpa using hdigits (by decide) h
  split
  case isTrue h => simpa using hdigits (by decide) h
  case isFalse => simpa using @hdigits 8 (by decide) (by omega)

private theorem stands_escapeCode (hquote : IsDelimiter quote) (hwide : wide = true ∨ c.toNat < 0x100) :
    Stands wide quote (escapeCode c.toNat) c := by
  have hmost := toNat_lt c
  unfold escapeCode
  split
  case isTrue h => exact stands_codePoint (by decide) h hquote (by decide) fun _ => rfl
  case isFalse h =>
    obtain rfl := hwide.resolve_right h
    split
    case isTrue h => exact stands_codePoint (by decide) h hquote (by decide) fun _ => rfl
    case isFalse h => exact stands_codePoint (by decide) (by omega) hquote (by decide) fun _ => rfl

/-! ### Quoted texts -/

/-- What may be shown: in ASCII the space and the graphic characters, and beyond it no control characters and no
separators of lines or paragraphs. -/
structure Printability (shown : Char → Bool) : Prop where
  ascii : ∀ c : Char, c.toNat < 0x80 → shown c = (decide (0x20 ≤ c.toNat) && decide (c.toNat ≤ 0x7e))
  control : ∀ c, IsControl c → shown c = false

private theorem printability_isPrintable : Printability isPrintable where
  ascii c h := by simp [isPrintable, h]
  control c h := by
    have hrange : ∀ r ∈ [((0x80, 0xa0) : Nat × Nat), (0x2028, 0x202f)], r ∈ unprintableRanges := by decide +kernel
    unfold IsControl at h
    unfold isPrintable
    extract_lets n
    split
    · simp only [Bool.and_eq_false_iff, decide_eq_false_iff_not]
      omega
    · have hhidden : unprintableRanges.any (fun r => decide (r.1 ≤ n) && decide (n ≤ r.2)) = true := by
        rw [any_eq_true]
        by_cases hn : n ≤ 0xa0
        · exact ⟨(0x80, 0xa0), hrange _ (by simp), by simp; omega⟩
        · exact ⟨(0x2028, 0x202f), hrange _ (by simp), by simp; omega⟩
      rw [hhidden]
      rfl

private theorem stands_escapeChar (hquote : IsDelimiter quote) (hwide : wide = true ∨ c.toNat < 0x100)
    (hshown : shown c = true → ¬IsControl c ∧ (wide = true ∨ c.toNat < 0x80)) :
    Stands wide quote (escapeChar shown quote c) c := by
  have hescape : ∀ d, ¬IsControl d → (∀ rest, escape? wide (d :: rest) = some (c, rest)) →
      Stands wide quote ['\\', d] c := fun d hd hreads => stands_escape (by simp) hreads (by simpa using hd)
  unfold escapeChar
  iterate 4
    split
    case isTrue h =>
      subst h
      exact hescape _ (by decide) fun _ => rfl
  split
  case isTrue h =>
    subst h
    rcases hquote with rfl | rfl <;> exact hescape _ (by decide) fun _ => rfl
  case isFalse hback _ _ _ hne =>
    split
    case isTrue h => exact stands_plain hback hne (hshown h).2 (hshown h).1
    case isFalse => exact stands_escapeCode hquote hwide

private theorem isDelimiter_delimiter (hasApostrophe hasDoubleQuote : Bool) :
    IsDelimiter (delimiter hasApostrophe hasDoubleQuote) := by
  unfold delimiter
  split
  · exact .inr rfl
  · exact .inl rfl

private theorem ascii_delimiter (hquote : IsDelimiter quote) : quote.toNat < 0x80 := by
  rcases hquote with rfl | rfl <;> decide

private theorem ascii_escapeChar (hquote : IsDelimiter quote) (hshown : shown c = true → c.toNat < 0x80) :
    ∀ x ∈ escapeChar shown quote c, x.toNat < 0x80 := by
  unfold escapeChar
  iterate 4
    split
    case isTrue => simp
  split
  case isTrue h =>
    subst h
    rcases hquote with rfl | rfl <;> simp
  split
  case isTrue h => simpa using hshown h
  case isFalse => exact ascii_escapeCode c

section Texts

variable {shown : Char → Bool} (h : Printability shown)
include h

private theorem Printability.visible (hc : shown c = true) : ¬IsControl c := by
  intro hcontrol
  rw [h.control c hcontrol] at hc
  cases hc

private theorem Printability.narrow : Printability fun c => shown c && decide (c.toNat < 0x80) where
  ascii c hc := by simp [h.ascii c hc, hc]
  control c hc := by simp [h.control c hc]

private theorem isLiteral_quoteChars (cs : List Char) : IsLiteral (unescape true) (quoteChars shown cs) cs :=
  isLiteral_pieces (isDelimiter_delimiter _ _)
    (fun _ _ => stands_escapeChar (isDelimiter_delimiter _ _) (.inl rfl) fun hc =>
      ⟨h.visible hc, .inl rfl⟩) fun _ => id

end Texts

private theorem escapeNonAscii_of_ascii (h : ∀ c ∈ cs, c.toNat < 0x80) :
    (cs.flatMap fun c => if c.toNat < 0x80 then [c] else escapeCode c.toNat) = cs := by
  induction cs with
  | nil => rfl
  | cons c cs ih =>
    obtain ⟨hc, hcs⟩ := forall_mem_cons.mp h
    rw [flatMap_cons, if_pos hc, ih hcs]
    rfl

private theorem escapeNonAscii_escapeChar (shown : Char → Bool) (hquote : IsDelimiter quote) (c : Char) :
    ((escapeChar shown quote c).flatMap fun x => if x.toNat < 0x80 then [x] else escapeCode x.toNat) =
      escapeChar (fun c => shown c && decide (c.toNat < 0x80)) quote c := by
  by_cases hc : c.toNat < 0x80
  · have hsame : escapeChar (fun c => shown c && decide (c.toNat < 0x80)) quote c = escapeChar shown quote c := by
      simp [escapeChar, hc]
    rw [hsame, escapeNonAscii_of_ascii (ascii_escapeChar hquote fun _ => hc)]
  · have hne : ∀ d : Char, d.toNat < 0x80 → c ≠ d := fun d hd heq => hc (heq ▸ hd)
    have hdelimiter : c ≠ quote := hne quote (ascii_delimiter hquote)
    simp only [escapeChar, hne '\\' (by decide), hne '\t' (by decide), hne '\n' (by decide), hne '\r' (by decide),
      hdelimiter, hc, if_false, decide_false, Bool.and_false, Bool.false_eq_true]
    split
    · simp [hc]
    · exact escapeNonAscii_of_ascii (ascii_escapeCode c)

/-- Escaping what is not ASCII in a quoted text is quoting with fewer characters shown. -/
private theorem escapeNonAscii_quoteChars (shown : Char → Bool) (cs : List Char) :
    (escapeNonAscii (String.ofList (quoteChars shown cs))).toList =
      quoteChars (fun c => shown c && decide (c.toNat < 0x80)) cs := by
  unfold quoteChars
  extract_lets quote
  have hquote : IsDelimiter quote := isDelimiter_delimiter _ _
  clear_value quote
  simp [escapeNonAscii, flatMap_assoc, ascii_delimiter hquote, escapeNonAscii_escapeChar shown hquote]

private theorem ascii_quoteChars (shown : Char → Bool) (cs : List Char) :
    ∀ x ∈ quoteChars (fun c => shown c && decide (c.toNat < 0x80)) cs, x.toNat < 0x80 := by
  unfold quoteChars
  extract_lets quote
  have hquote : IsDelimiter quote := isDelimiter_delimiter _ _
  have hchar : ∀ c ∈ cs, ∀ x ∈ escapeChar (fun c => shown c && decide (c.toNat < 0x80)) quote c, x.toNat < 0x80 :=
    fun c _ => ascii_escapeChar hquote (by simp +contextual)
  clear_value quote
  simpa [or_imp, forall_and, ascii_delimiter hquote] using fun x c hc => hchar c hc x

/-! ### Byte strings -/

theorem toNat_charOfByte (b : UInt8) : (charOfByte b).toNat = b.toNat := by
  have hb := b.toNat_lt
  have hvalid : b.toNat.isValidChar := .inl (by omega)
  rw [charOfByte, Char.toNat_ofNat, if_pos hvalid]

private theorem isLiteral_quoteBytes (bytes : List UInt8) :
    ∃ text, (quoteBytes bytes).toList = 'b' :: text ∧ IsLiteral unescapeBytes text bytes := by
  refine ⟨_, String.toList_ofList, isLiteral_pieces (isDelimiter_delimiter _ _) (fun c hc => ?_)
    fun body (h : unescape false body = _) => ?_⟩
  · obtain ⟨b, -, rfl⟩ := mem_map.mp hc
    have hb := b.toNat_lt
    rw [← toNat_charOfByte] at hb
    refine stands_escapeChar (isDelimiter_delimiter _ _) (.inr hb) fun hshown => ?_
    simp only [Bool.and_eq_true, decide_eq_true_eq] at hshown
    refine ⟨?_, .inr (by omega)⟩
    unfold IsControl
    omega
  · simp [unescapeBytes, h, Function.comp_def, toNat_charOfByte]

/-! ### Quoting and reading -/

/-- The quoted form of a text in which the given characters are shown as they are. -/
def quoteWith (shown : Char → Bool) (s : String) : String := String.ofList (quoteChars shown s.toList)

private theorem isLiteral_quoteWith (h : Printability shown) (s : String) :
    IsLiteral (unescape true) (quoteWith shown s).toList s.toList := by
  rw [quoteWith, String.toList_ofList]
  exact isLiteral_quoteChars h s.toList

private theorem isLiteral_escapeNonAscii (h : Printability shown) (s : String) :
    IsLiteral (unescape true) (escapeNonAscii (quoteWith shown s)).toList s.toList ∧
      isAscii (escapeNonAscii (quoteWith shown s)) = true := by
  rw [isAscii, quoteWith, escapeNonAscii_quoteChars]
  exact ⟨isLiteral_quoteChars h.narrow s.toList, by simpa using ascii_quoteChars shown s.toList⟩

/-- The quoted form of a text is a literal of the text, whatever is shown beyond ASCII as long as that is no control
character; so is its form in ASCII, and the quoted form of a byte string. -/
theorem quoted_literals :
    (∀ shown, Printability shown → ∀ s, IsLiteral (unescape true) (quoteWith shown s).toList s.toList ∧
      IsLiteral (unescape true) (escapeNonAscii (quoteWith shown s)).toList s.toList ∧
      isAscii (escapeNonAscii (quoteWith shown s)) = true) ∧
      (∀ s, IsLiteral (unescape true) (Text.quote s).toList s.toList) ∧
      (∀ limits s, ∃ ascii text, Catalog.standard.builtin? "ascii" = some ascii ∧
        ascii.evaluate limits none [.str s] = .ok (some (.str text)) ∧
        IsLiteral (unescape true) text.toList s.toList ∧ isAscii text = true) ∧
      ∀ bytes, ∃ text, (quoteBytes bytes).toList = 'b' :: text ∧ IsLiteral unescapeBytes text bytes := by
  refine ⟨fun shown h s => ⟨isLiteral_quoteWith h s, isLiteral_escapeNonAscii h s⟩,
    isLiteral_quoteWith printability_isPrintable, fun limits s => ?_, isLiteral_quoteBytes⟩
  exact ⟨_, _, rfl, rfl, isLiteral_escapeNonAscii printability_isPrintable s⟩

/-- The law at a text with both delimiters, a backslash before a letter, a line end and characters beyond ASCII, none
of which are shown. -/
theorem quoted_literals_mixed :
    let shown : Char → Bool := fun c => decide (0x20 ≤ c.toNat) && decide (c.toNat ≤ 0x7e)
    let s := String.ofList ['\x27', '\x22', '\\', 'x', '4', '\n', 'é', '字', '\u2028']
    Printability shown ∧ IsLiteral (unescape true) (quoteWith shown s).toList s.toList := by
  intro shown s
  have hshown : Printability shown := by
    refine ⟨fun c _ => rfl, fun c hc => ?_⟩
    unfold IsControl at hc
    simp only [shown, Bool.and_eq_false_iff, decide_eq_false_iff_not]
    omega
  exact ⟨hshown, (quoted_literals.1 shown hshown s).1⟩

end Speculator.Text

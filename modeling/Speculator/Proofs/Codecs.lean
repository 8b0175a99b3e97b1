import Speculator.Proofs.QuotedText

/-!
# Text codecs

Which bytes stand for a text.  Each codec has byte sequences for single code points (`Unit`): single bytes, or the
sequences of UTF-8, which are given by the ranges of their bytes (`Sequence`).  A text is represented by the sequences
of its characters, one after the other, and both encoding and decoding go by this one relation.
-/

namespace Speculator.Text.Codec

open List

/-! ### The bytes of a code point -/

def Trails (b : UInt8) : Prop := 0x80 ≤ b.toNat ∧ b.toNat ≤ 0xbf

/-- The byte sequences of UTF-8, with their code points.  The second byte behind `0xe0` and `0xf0` excludes sequences
that are too long, behind `0xed` surrogates, and behind `0xf4` what is beyond the last code point. -/
inductive Sequence : Nat → List UInt8 → Prop
  | one {a : UInt8} (ha : a.toNat ≤ 0x7f) : Sequence a.toNat [a]
  | two {a b : UInt8} (ha : 0xc2 ≤ a.toNat ∧ a.toNat ≤ 0xdf) (hb : Trails b) :
    Sequence ((a.toNat - 0xc0) * 64 + (b.toNat - 0x80)) [a, b]
  | three {a b c : UInt8} (ha : 0xe0 ≤ a.toNat ∧ a.toNat ≤ 0xef) (hb : Trails b) (hc : Trails c)
    (hlong : a.toNat = 0xe0 → 0xa0 ≤ b.toNat) (hsurrogate : a.toNat = 0xed → b.toNat ≤ 0x9f) :
    Sequence ((a.toNat - 0xe0) * 4096 + (b.toNat - 0x80) * 64 + (c.toNat - 0x80)) [a, b, c]
  | four {a b c d : UInt8} (ha : 0xf0 ≤ a.toNat ∧ a.toNat ≤ 0xf4) (hb : Trails b) (hc : Trails c) (hd : Trails d)
    (hlong : a.toNat = 0xf0 → 0x90 ≤ b.toNat) (hmost : a.toNat = 0xf4 → b.toNat ≤ 0x8f) :
    Sequence ((a.toNat - 0xf0) * 262144 + (b.toNat - 0x80) * 4096 + (c.toNat - 0x80) * 64 + (d.toNat - 0x80))
      [a, b, c, d]

def bound : Codec → Nat
  | .utf8 => 0x110000
  | .ascii => 0x80
  | .latin1 => 0x100

/-- The byte sequences that a codec has for a code point. -/
inductive Unit : Codec → Nat → List UInt8 → Prop
  | utf8 {n : Nat} {bytes} (h : Sequence n bytes) : Unit utf8 n bytes
  | byte {codec} {b : UInt8} (hcodec : codec ≠ utf8) (h : b.toNat < codec.bound) : Unit codec b.toNat [b]

def IsValid (codec : Codec) (bytes : List UInt8) : Prop :=
  ∃ pieces : List (List UInt8), (∀ piece ∈ pieces, ∃ n, codec.Unit n piece) ∧ bytes = pieces.flatten

def Represents (codec : Codec) (s : String) (bytes : List UInt8) : Prop :=
  ∃ pieces, Forall₂ (fun c piece => codec.Unit c.toNat piece) s.toList pieces ∧ bytes = pieces.flatten

def utf8Bytes (n : Nat) : List UInt8 :=
  if n ≤ 0x7f then [UInt8.ofNat n]
  else if n ≤ 0x7ff then [UInt8.ofNat (n / 64 % 32 + 0xc0), UInt8.ofNat (n % 64 + 0x80)]
  else if n ≤ 0xffff then
    [UInt8.ofNat (n / 4096 % 16 + 0xe0), UInt8.ofNat (n / 64 % 64 + 0x80), UInt8.ofNat (n % 64 + 0x80)]
  else
    [UInt8.ofNat (n / 262144 % 8 + 0xf0), UInt8.ofNat (n / 4096 % 64 + 0x80), UInt8.ofNat (n / 64 % 64 + 0x80),
      UInt8.ofNat (n % 64 + 0x80)]

def bytesOf (codec : Codec) (n : Nat) : List UInt8 := if codec = utf8 then utf8Bytes n else [UInt8.ofNat n]

variable {n : Nat} {bytes : List UInt8} {codec : Codec} {c : Char} {s : String}

private theorem toNat_byte (h : n < 0x100) : (UInt8.ofNat n).toNat = n := by
  rw [UInt8.toNat_ofNat', Nat.mod_eq_of_lt h]

private theorem eq_byte {b : UInt8} (h : b.toNat = n) : b = UInt8.ofNat n := by
  rw [← h, UInt8.ofNat_toNat]

private theorem Sequence.isValidChar (h : Sequence n bytes) : n.isValidChar := by
  unfold Nat.isValidChar
  cases h with
  | one => omega
  | two _ hb =>
    unfold Trails at hb
    omega
  | three _ hb hc =>
    unfold Trails at hb hc
    omega
  | four _ hb hc hd =>
    unfold Trails at hb hc hd
    omega

private theorem sequence_utf8Bytes (h : n.isValidChar) : Sequence n (utf8Bytes n) := by
  unfold Nat.isValidChar at h
  have hindex : ∀ {m : Nat} {bytes}, Sequence m bytes → m = n → Sequence n bytes := fun h hn => hn ▸ h
  unfold utf8Bytes
  split
  · refine hindex (.one ?_) ?_ <;> rw [toNat_byte (by omega)]
    assumption
  split
  · refine hindex (.two ?_ ?_) ?_ <;> simp (disch := omega) only [Trails, toNat_byte] <;> omega
  split
  · refine hindex (.three ?_ ?_ ?_ ?_ ?_) ?_ <;> simp (disch := omega) only [Trails, toNat_byte] <;> omega
  · refine hindex (.four ?_ ?_ ?_ ?_ ?_ ?_) ?_ <;> simp (disch := omega) only [Trails, toNat_byte] <;> omega

private theorem Sequence.eq_utf8Bytes (h : Sequence n bytes) : bytes = utf8Bytes n := by
  unfold utf8Bytes
  cases h with
  | one ha => rw [if_pos ha, UInt8.ofNat_toNat]
  | two ha hb =>
    unfold Trails at hb
    rw [if_neg (by omega), if_pos (by omega)]
    simp only [cons.injEq, and_true]
    exact ⟨eq_byte (by omega), eq_byte (by omega)⟩
  | three ha hb hc =>
    unfold Trails at hb hc
    rw [if_neg (by omega), if_neg (by omega), if_pos (by omega)]
    simp only [cons.injEq, and_true]
    exact ⟨eq_byte (by omega), eq_byte (by omega), eq_byte (by omega)⟩
  | four ha hb hc hd =>
    unfold Trails at hb hc hd
    rw [if_neg (by omega), if_neg (by omega), if_neg (by omega)]
    simp only [cons.injEq, and_true]
    exact ⟨eq_byte (by omega), eq_byte (by omega), eq_byte (by omega), eq_byte (by omega)⟩

private theorem bound_le (h : codec ≠ utf8) : codec.bound ≤ 0x100 := by
  cases codec with
  | utf8 => exact absurd rfl h
  | ascii | latin1 => decide

private theorem Unit.isValidChar (h : codec.Unit n bytes) : n.isValidChar := by
  cases h with
  | utf8 h => exact h.isValidChar
  | byte hcodec h =>
    have := bound_le hcodec
    exact .inl (by omega)

private theorem unit_iff : codec.Unit c.toNat bytes ↔ c.toNat < codec.bound ∧ bytes = codec.bytesOf c.toNat := by
  have hvalid : c.toNat.isValidChar := c.valid
  have hlt := toNat_lt c
  generalize c.toNat = n at hvalid hlt
  by_cases hcodec : codec = utf8
  · subst hcodec
    rw [bytesOf, if_pos rfl]
    constructor
    · intro h
      refine ⟨hlt, ?_⟩
      cases h with
      | utf8 h => exact h.eq_utf8Bytes
      | byte hcodec => exact absurd rfl hcodec
    · rintro ⟨-, rfl⟩
      exact .utf8 (sequence_utf8Bytes hvalid)
  · rw [bytesOf, if_neg hcodec]
    constructor
    · intro h
      cases h with
      | utf8 => exact absurd rfl hcodec
      | byte _ h => exact ⟨h, by rw [UInt8.ofNat_toNat]⟩
    · rintro ⟨hn, rfl⟩
      have hbyte := toNat_byte (Nat.lt_of_lt_of_le hn (bound_le hcodec))
      have h : codec.Unit (UInt8.ofNat n).toNat [UInt8.ofNat n] := .byte hcodec (hbyte.symm ▸ hn)
      rwa [hbyte] at h

/-! ### Encoding and decoding -/

private theorem represents_iff : codec.Represents s bytes ↔
    (∀ c ∈ s.toList, c.toNat < codec.bound) ∧ bytes = s.toList.flatMap fun c => codec.bytesOf c.toNat := by
  unfold Represents
  simp only [unit_iff]
  generalize s.toList = cs
  constructor
  · rintro ⟨pieces, h, rfl⟩
    induction h with
    | nil => simp
    | cons hc _ ih => simpa [hc.1, hc.2, ih.2] using ih.1
  · rintro ⟨hcovers, rfl⟩
    refine ⟨_, ?_, flatMap_def⟩
    rw [forall₂_map_right_iff, forall₂_same]
    exact fun c hc => ⟨hcovers c hc, rfl⟩

private theorem toList_toUTF8 (s : String) : s.toUTF8.data.toList = s.toList.flatMap fun c => utf8Bytes c.toNat := by
  conv =>
    lhs
    rw [← String.ofList_toList (s := s)]
  change (s.toList.flatMap String.utf8EncodeChar).toByteArray.data.toList = _
  rw [data_toByteArray]
  rfl

private theorem fromUTF8?_eq_some_iff : String.fromUTF8? ⟨bytes.toArray⟩ = some s ↔ s.toUTF8.data.toList = bytes := by
  unfold String.fromUTF8?
  constructor
  · intro h
    split at h
    · cases h
      rfl
    · cases h
  · rintro rfl
    exact dif_pos s.isValidUTF8

private theorem encodeBelow_eq_some_iff {bound : Nat} : encodeBelow bound s = some bytes ↔
    (∀ c ∈ s.toList, c.toNat < bound) ∧ bytes = s.toList.map fun c => UInt8.ofNat c.toNat := by
  simp only [encodeBelow, all_eq_true, decide_eq_true_eq, Option.ite_none_right_eq_some, Option.some.injEq]
  exact and_congr_right fun _ => eq_comm

private theorem decodeBelow_eq_some_iff {bound : Nat} (hbound : bound ≤ 0x100) :
    decodeBelow bound bytes = some s ↔ encodeBelow bound s = some bytes := by
  rw [encodeBelow_eq_some_iff, decodeBelow]
  simp only [all_eq_true, decide_eq_true_eq, Option.ite_none_right_eq_some, Option.some.injEq]
  constructor
  · rintro ⟨h, rfl⟩
    have hbyte : ∀ b : UInt8, (Char.ofNat b.toNat).toNat = b.toNat := toNat_charOfByte
    simpa [hbyte, Function.comp_def] using h
  · rintro ⟨h, rfl⟩
    have hchar : ∀ c ∈ s.toList, (UInt8.ofNat c.toNat).toNat = c.toNat := fun c hc =>
      toNat_byte (Nat.lt_of_lt_of_le (h c hc) hbound)
    constructor
    · rw [forall_mem_map]
      exact fun c hc => (hchar c hc).symm ▸ h c hc
    · have hback : ∀ c ∈ s.toList, ((fun b : UInt8 => Char.ofNat b.toNat) ∘ fun c => UInt8.ofNat c.toNat) c = c :=
        fun c hc => by rw [Function.comp_apply, hchar c hc, Char.ofNat_toNat]
      rw [map_map, map_congr_left hback, map_id', String.ofList_toList]

/-- Encoding finds the bytes that represent the text. -/
private theorem encode_eq_some_iff : codec.encode s = some bytes ↔ codec.Represents s bytes := by
  rw [represents_iff]
  by_cases hcodec : codec = utf8
  · subst hcodec
    have hcovers : ∀ c ∈ s.toList, c.toNat < bound utf8 := fun c _ => toNat_lt c
    rw [encode, toList_toUTF8, Option.some.injEq]
    exact ⟨fun h => ⟨hcovers, h.symm⟩, fun h => h.2.symm⟩
  · have hencode : codec.encode s = encodeBelow codec.bound s := by
      cases codec with
      | utf8 => exact absurd rfl hcodec
      | ascii | latin1 => rfl
    simp only [hencode, encodeBelow_eq_some_iff, bytesOf, if_neg hcodec, ← map_eq_flatMap]

/-- Decoding undoes encoding. -/
private theorem decode_eq_some_iff : codec.decode bytes = some s ↔ codec.encode s = some bytes := by
  cases codec with
  | utf8 =>
    rw [decode, encode, fromUTF8?_eq_some_iff, Option.some.injEq]
  | ascii | latin1 => exact decodeBelow_eq_some_iff (by decide)

private theorem isValid_iff : codec.IsValid bytes ↔ ∃ s, codec.Represents s bytes := by
  constructor
  · rintro ⟨pieces, h, rfl⟩
    obtain ⟨cs, hcs⟩ : ∃ cs : List Char, Forall₂ (fun c piece => codec.Unit c.toNat piece) cs pieces := by
      induction pieces with
      | nil => exact ⟨[], .nil⟩
      | cons piece pieces ih =>
        obtain ⟨⟨n, hpiece⟩, hpieces⟩ := forall_mem_cons.mp h
        obtain ⟨cs, hcs⟩ := ih hpieces
        have hn : (Char.ofNat n).toNat = n := by rw [Char.toNat_ofNat, if_pos hpiece.isValidChar]
        exact ⟨Char.ofNat n :: cs, .cons (hn.symm ▸ hpiece) hcs⟩
    exact ⟨String.ofList cs, pieces, by rwa [String.toList_ofList], rfl⟩
  · rintro ⟨s, pieces, h, rfl⟩
    refine ⟨pieces, fun piece hpiece => ?_, rfl⟩
    obtain ⟨c, -, hc⟩ := exists_of_forall₂ h hpiece
    exact ⟨c.toNat, hc⟩

/-! ### Names of codecs -/

def spellings : Codec → List String
  | .utf8 => ["utf-8", "utf8"]
  | .ascii => ["ascii", "us-ascii"]
  | .latin1 => ["latin-1", "latin1", "iso-8859-1", "iso8859-1"]

/-- The name is a spelling of the codec in any case, with underscores for hyphens. -/
def Named (codec : Codec) (name : String) : Prop :=
  ∃ spelling ∈ codec.spellings,
    Forall₂ (fun c d => if c = '_' then d = '-' else c.toLower = d) name.toList spelling.toList

/-- The arguments that choose a codec: none, its name, or its name and strict handling of errors. -/
inductive Chosen : List Value → Codec → Prop
  | default : Chosen [] utf8
  | name {codec : Codec} {name : String} (h : codec.Named name) : Chosen [.str name] codec
  | strict {codec : Codec} {name : String} (h : codec.Named name) : Chosen [.str name, .str "strict"] codec

private theorem named_iff {name : String} : codec.Named name ↔
    String.ofList (name.toList.map fun c => if c = '_' then '-' else c.toLower) ∈ codec.spellings := by
  have hchar : ∀ c d : Char, (if c = '_' then d = '-' else c.toLower = d) ↔
      (if c = '_' then '-' else c.toLower) = d := by
    intro c d
    split
    · exact eq_comm
    · exact Iff.rfl
  have hsame : ∀ cs ds : List Char, Forall₂ (fun c d => if c = '_' then d = '-' else c.toLower = d) cs ds ↔
      cs.map (fun c => if c = '_' then '-' else c.toLower) = ds := by
    intro cs ds
    simp only [hchar, ← forall₂_eq_eq_eq (α := Char), forall₂_map_left_iff]
  simp only [Named, hsame]
  constructor
  · rintro ⟨spelling, hspelling, h⟩
    rwa [h, String.ofList_toList]
  · exact fun h => ⟨_, h, String.toList_ofList.symm⟩

private theorem ofName?_eq_some_iff {name : String} : ofName? name = some codec ↔ codec.Named name := by
  rw [named_iff, ofName?]
  generalize String.ofList _ = normal
  simp only [contains_iff_mem]
  constructor
  · intro h
    split at h
    · cases h
      assumption
    split at h
    · cases h
      assumption
    split at h
    · cases h
      assumption
    · cases h
  · intro h
    cases codec <;> simp only [spellings, mem_cons, not_mem_nil, or_false] at h
    · rcases h with rfl | rfl <;> rfl
    · rcases h with rfl | rfl <;> rfl
    · rcases h with rfl | rfl | rfl | rfl <;> rfl

variable {receiver : Value} {args : List Value} {limits : Limits}

private theorem codec?_eq_some_iff (h : args.length ≤ 2) :
    Method.codec? (receiver :: args) = some codec ↔ Chosen args codec := by
  rw [Method.codec?, drop_succ_cons, drop_zero]
  constructor
  · intro hcodec
    split at hcodec
    case h_1 =>
      cases hcodec
      exact .default
    case h_2 => exact .name (ofName?_eq_some_iff.mp hcodec)
    case h_3 name errors rest =>
      obtain rfl : rest = [] := by simpa using h
      rw [Option.ite_none_right_eq_some, beq_iff_eq] at hcodec
      obtain ⟨rfl, hcodec⟩ := hcodec
      exact .strict (ofName?_eq_some_iff.mp hcodec)
    case h_4 => cases hcodec
  · intro hchosen
    cases hchosen with
    | default => rfl
    | name hname | strict hname => exact ofName?_eq_some_iff.mpr hname

private theorem Chosen.codec? (h : Chosen args codec) : Method.codec? (receiver :: args) = some codec := by
  refine (codec?_eq_some_iff ?_).mpr h
  cases h <;> simp

/-! ### Methods -/

private theorem applies_coding (h : Chosen args codec) (type name : String) (call : List Value → Except Fault Value) :
    (Method.coding type name call).2.applies limits (some receiver) args = true := by
  have hargs : (Method.coding type name call).2.takes args.length = true ∧
      (Method.coding type name call).2.acceptsFrom 0 args = true := by
    cases h <;> exact ⟨rfl, rfl⟩
  have hholds : (Method.coding type name call).2.holds limits (receiver :: args) = .ok true := by
    change Except.ok (Method.codec? (receiver :: args)).isSome = _
    rw [h.codec?]
    rfl
  simp [Contract.applies, hargs, hholds, Except.toOption]

private theorem evaluate_encode (h : Chosen args codec) (s : String) :
    (Method.coding "str" "encode" Method.encode).2.evaluate limits (some (.str s)) args =
      .ok ((codec.encode s).map .bytes) := by
  have hkeeps := Method.keeps_contracts (Method.coding "str" "encode" Method.encode)
      (by simp [Method.contracts]) limits
    (.str s) args rfl
  rw [hkeeps.evaluate_eq, applies_coding h, if_pos rfl]
  change Except.ok (Method.encode (.str s :: args)).toOption = _
  rw [Method.encode, argument_zero, ok_bind]
  simp only [h.codec?]
  cases codec.encode s <;> rfl

private theorem evaluate_decode (h : Chosen args codec) (bytes : List UInt8) :
    (Method.coding "bytes" "decode" Method.decode).2.evaluate limits (some (.bytes bytes)) args =
      .ok ((codec.decode bytes).map .str) := by
  have hkeeps := Method.keeps_contracts (Method.coding "bytes" "decode" Method.decode)
      (by simp [Method.contracts]) limits
    (.bytes bytes) args rfl
  rw [hkeeps.evaluate_eq, applies_coding h, if_pos rfl]
  change Except.ok (Method.decode (.bytes bytes :: args)).toOption = _
  rw [Method.decode, argument_zero, ok_bind]
  simp only [h.codec?]
  cases codec.decode bytes <;> rfl

private theorem encode_eq_none_iff : codec.encode s = none ↔ ∃ c ∈ s.toList, codec.bound ≤ c.toNat := by
  rw [Option.eq_none_iff_forall_ne_some]
  constructor
  · intro h
    by_contra hcovers
    simp only [not_exists, not_and, not_le] at hcovers
    exact h _ (encode_eq_some_iff.mpr (represents_iff.mpr ⟨hcovers, rfl⟩))
  · rintro ⟨c, hc, hbound⟩ bytes h
    have hcovers := (represents_iff.mp (encode_eq_some_iff.mp h)).1 c hc
    omega

private theorem decode_eq_none_iff : codec.decode bytes = none ↔ ¬codec.IsValid bytes := by
  rw [Option.eq_none_iff_forall_ne_some, isValid_iff, not_exists]
  simp only [ne_eq, decode_eq_some_iff, encode_eq_some_iff]

/-- With the same codec, encoding and decoding undo each other.  Encoding gives the bytes of the text unless that has
a character beyond the codec, and decoding gives the text of the bytes unless they are not made of the sequences of
the codec. -/
theorem codecs_inverse : ∃ encode decode, Catalog.standard.method? "str" "encode" = some encode ∧
    Catalog.standard.method? "bytes" "decode" = some decode ∧
    (∀ receiver args codec, args.length ≤ 2 → (Method.codec? (receiver :: args) = some codec ↔ Chosen args codec)) ∧
    ∀ limits args codec, Chosen args codec →
      (∀ s bytes, encode.evaluate limits (some (.str s)) args = .ok (some (.bytes bytes)) ↔
        decode.evaluate limits (some (.bytes bytes)) args = .ok (some (.str s))) ∧
      (∀ s, (encode.evaluate limits (some (.str s)) args = .ok none ↔ ∃ c ∈ s.toList, codec.bound ≤ c.toNat) ∧
        (encode.evaluate limits (some (.str s)) args = .ok none ∨ ∃ bytes, codec.Represents s bytes ∧
          encode.evaluate limits (some (.str s)) args = .ok (some (.bytes bytes)))) ∧
      ∀ bytes, (decode.evaluate limits (some (.bytes bytes)) args = .ok none ↔ ¬codec.IsValid bytes) ∧
        (decode.evaluate limits (some (.bytes bytes)) args = .ok none ∨ ∃ s, codec.Represents s bytes ∧
          decode.evaluate limits (some (.bytes bytes)) args = .ok (some (.str s))) := by
  refine ⟨_, _, rfl, rfl, fun _ _ _ => codec?_eq_some_iff, fun limits args codec h => ?_⟩
  refine ⟨fun s bytes => ?_, fun s => ?_, fun bytes => ?_⟩
  · rw [evaluate_encode h, evaluate_decode h]
    simp [decode_eq_some_iff]
  · rw [evaluate_encode h]
    refine ⟨by simp [encode_eq_none_iff], ?_⟩
    cases hencode : codec.encode s with
    | none => exact .inl rfl
    | some bytes => exact .inr ⟨bytes, encode_eq_some_iff.mp hencode, rfl⟩
  · rw [evaluate_decode h]
    refine ⟨by simp [decode_eq_none_iff], ?_⟩
    cases hdecode : codec.decode bytes with
    | none => exact .inl rfl
    | some s => exact .inr ⟨s, encode_eq_some_iff.mp (decode_eq_some_iff.mp hdecode), rfl⟩

/-- The law for the name `Utf_8`, at the three bytes of the character `€`. -/
theorem codecs_inverse_spelled : ∃ decode, Catalog.standard.method? "bytes" "decode" = some decode ∧
    decode.evaluate {} (some (.bytes [0xe2, 0x82, 0xac])) [.str "Utf_8", .str "strict"] = .ok (some (.str "€")) := by
  have hchosen : Chosen [.str "Utf_8", .str "strict"] utf8 := .strict (ofName?_eq_some_iff.mp rfl)
  obtain ⟨encode, decode, hencode, hdecode, -, hlaw⟩ := codecs_inverse
  refine ⟨decode, hdecode, ((hlaw {} _ utf8 hchosen).1 "€" _).mp ?_⟩
  obtain rfl : (Method.coding "str" "encode" Method.encode).2 = encode := Option.some.inj hencode
  rw [evaluate_encode hchosen]
  rfl

end Speculator.Text.Codec

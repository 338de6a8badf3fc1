/-
Bytes that are a text.

The decoder takes the bytes of a text back to its characters, and bytes that it takes
for a text are the bytes of that text.  So the bytes that are well-formed are those that
some text has, and no bytes are those of two texts.

* `Utf8.Opened.Holds p v` — a character that has been opened as `p` can be the one of
  value `v`, and then its bytes go on with `Utf8.tails`;
* `Utf8.decode_encode` and `Utf8.encode_of_decode` are the two directions;
* `readText_eq_ok_iff` — the bytes that can be read are those of a text.

Design notes: the decoder opens a character at its first byte, with a range for the
second, and the ranges differ from byte to byte.  What is proved of them, once for every
first byte (`Utf8.suits_lead`), is that they leave just the values that are written with
this byte.
-/
import Mathlib.Tactic.NormNum
import ScriptSyntax.CommandLine.FileTree
import ScriptSyntax.Proofs.Text.ByteCursor

namespace ScriptSyntax

namespace Utf8

/-! ### The bytes after the first -/

/-- The last `owed + 1` bytes of the character of value `v`. -/
def tails : Nat → Nat → List UInt8
  | 0, v => [.ofNat (0x80 + v % 0x40)]
  | owed + 1, v => .ofNat (0x80 + v / 0x40 ^ (owed + 1) % 0x40) :: tails owed v

/-- A character opened as `p` can have the value `v`. -/
structure Opened.Holds (p : Opened) (v : Nat) : Prop where
  value : v / 0x40 ^ (p.owed + 1) = p.value
  low_le : p.low ≤ 0x80 + v / 0x40 ^ p.owed % 0x40
  le_high : 0x80 + v / 0x40 ^ p.owed % 0x40 ≤ p.high

/-- The range of the next byte has only bytes that go on with a character. -/
structure Opened.Sound (p : Opened) : Prop where
  low : 0x80 ≤ p.low
  high : p.high ≤ 0xBF

/-- The next byte gives the next digit of the value. -/
theorem div_pow_succ (v owed : Nat) :
    v / 0x40 ^ (owed + 1) * 0x40 + v / 0x40 ^ owed % 0x40 = v / 0x40 ^ owed := by
  rw [Nat.pow_succ, ← Nat.div_div_eq_div_mul]
  exact Nat.div_add_mod' _ _

/-- A byte that an open character can go on with. -/
theorem step_some {p : Opened} {b : Nat} (hlow : p.low ≤ b) (hhigh : b ≤ p.high) :
    step (some p) b = match p.owed with
      | 0 => ([some (Char.ofNat (p.value * 0x40 + (b - 0x80)))], none)
      | owed + 1 => ([], some ⟨p.value * 0x40 + (b - 0x80), owed, 0x80, 0xBF⟩) :=
  if_pos ⟨hlow, hhigh⟩

/-- An open character is ended by the bytes of one of its values. -/
theorem decodeFrom_tails {p : Opened} {v : Nat} (h : p.Holds v) (bs : List UInt8) :
    decodeFrom (some p) (tails p.owed v ++ bs) = some (Char.ofNat v) :: decodeFrom none bs := by
  obtain ⟨value, owed, low, high⟩ := p
  obtain ⟨hvalue, hlow, hhigh⟩ := h
  dsimp only at hvalue hlow hhigh ⊢
  have hdigit := div_pow_succ v owed
  rw [hvalue] at hdigit
  induction owed generalizing value low high with
  | zero =>
    have hbyte : (UInt8.ofNat (0x80 + v % 0x40)).toNat = 0x80 + v % 0x40 := toNat_ofNat (by omega)
    rw [Nat.pow_zero, Nat.div_one] at hlow hhigh hdigit
    rw [tails, List.singleton_append, decodeFrom, hbyte, step_some hlow hhigh]
    simp only [Nat.add_sub_cancel_left, hdigit, List.singleton_append]
  | succ owed ih =>
    -- Behind the second byte the range is that of all bytes but the first.
    have hbyte : (UInt8.ofNat (0x80 + v / 0x40 ^ (owed + 1) % 0x40)).toNat =
        0x80 + v / 0x40 ^ (owed + 1) % 0x40 := toNat_ofNat (by omega)
    rw [tails, List.cons_append, decodeFrom, hbyte, step_some hlow hhigh]
    simp only [Nat.add_sub_cancel_left, hdigit, List.nil_append]
    exact ih _ _ _ rfl (by omega) (by omega) (div_pow_succ v owed)

/-- A byte that an open character cannot go on with is ill-formed, and so is the end. -/
theorem exists_of_decodeFrom_some {p : Opened} {bs : List UInt8} {cs : List Char}
    (h : decodeFrom (some p) bs = cs.map some) :
    ∃ b rest, bs = b :: rest ∧ p.low ≤ b.toNat ∧ b.toNat ≤ p.high := by
  cases bs with
  | nil => cases cs <;> cases h
  | cons b rest =>
    by_cases hrange : p.low ≤ b.toNat ∧ b.toNat ≤ p.high
    · exact ⟨b, rest, rfl, hrange⟩
    · rw [decodeFrom, step, if_neg hrange] at h
      cases cs <;> cases h

/-- An open character that is ended well is ended by the bytes of one of its values. -/
theorem exists_tails {p : Opened} (hp : p.Sound) {bs : List UInt8} {cs : List Char}
    (h : decodeFrom (some p) bs = cs.map some) :
    ∃ v rest cs', p.Holds v ∧ bs = tails p.owed v ++ rest ∧ cs = Char.ofNat v :: cs' ∧
      decodeFrom none rest = cs'.map some := by
  obtain ⟨value, owed, low, high⟩ := p
  obtain ⟨hlow, hhigh⟩ := hp
  dsimp only at hlow hhigh
  induction owed generalizing value low high bs with
  | zero =>
    obtain ⟨b, rest, rfl, hle, hge⟩ := exists_of_decodeFrom_some h
    dsimp only at hle hge
    rw [decodeFrom, step_some hle hge] at h
    obtain ⟨c, cs', rfl, hc, hcs⟩ := List.map_eq_cons_iff.1 h.symm
    have hbyte : 0x80 + (value * 0x40 + (b.toNat - 0x80)) % 0x40 = b.toNat := by omega
    refine ⟨value * 0x40 + (b.toNat - 0x80), rest, cs', ⟨?_, ?_, ?_⟩, ?_, ?_, hcs.symm⟩
    · show (value * 0x40 + (b.toNat - 0x80)) / 0x40 ^ 1 = value
      omega
    · rwa [Nat.pow_zero, Nat.div_one, hbyte]
    · rwa [Nat.pow_zero, Nat.div_one, hbyte]
    · rw [tails, hbyte, UInt8.ofNat_toNat]
      rfl
    · rw [Option.some.inj hc]
  | succ owed ih =>
    obtain ⟨b, rest, rfl, hle, hge⟩ := exists_of_decodeFrom_some h
    dsimp only at hle hge
    rw [decodeFrom, step_some hle hge] at h
    obtain ⟨v, rest', cs', ⟨hvalue, -, -⟩, rfl, rfl, hrest⟩ := ih _ _ _ h (by decide) (by decide)
    -- The byte is the lowest digit of what the value begins with.
    dsimp only at hvalue
    have hdigit := div_pow_succ v (owed + 1)
    have hbyte : 0x80 + v / 0x40 ^ (owed + 1) % 0x40 = b.toNat := by omega
    refine ⟨v, rest', cs', ⟨?_, ?_, ?_⟩, ?_, rfl, hrest⟩
    · show v / 0x40 ^ (owed + 1 + 1) = value
      omega
    · rwa [hbyte]
    · rwa [hbyte]
    · rw [tails, hbyte, UInt8.ofNat_toNat, List.cons_append]

/-! ### The first byte -/

/-- The first byte of the character of value `v`, if there are `owed + 1` bytes after it. -/
def first (owed v : Nat) : Nat :=
  0x100 - 0x80 / 2 ^ (owed + 1) + v / 0x40 ^ (owed + 1)

/-- The byte is one of those that `owed + 1` bytes follow. -/
def Leading (owed b : Nat) : Prop :=
  owed = 0 ∧ 0xC2 ≤ b ∧ b < 0xE0 ∨ owed = 1 ∧ 0xE0 ≤ b ∧ b < 0xF0 ∨
    owed = 2 ∧ 0xF0 ≤ b ∧ b < 0xF5

/-- The value of a character is written with `owed + 1` bytes after the first. -/
def Wide (owed v : Nat) : Prop :=
  owed = 0 ∧ 0x80 ≤ v ∧ v < 0x800 ∨ owed = 1 ∧ 0x800 ≤ v ∧ v < 0x10000 ∨
    owed = 2 ∧ 0x10000 ≤ v ∧ v < 0x110000

/-- What a byte must be if it plays a part at the beginning of a character.  A first byte
of several leaves just the values that are written with it. -/
def Lead.Suits (b : Nat) : Lead → Prop
  | whole c => b < 0x80 ∧ c = Char.ofNat b
  | opens p => p.Sound ∧ Leading p.owed b ∧
      ∀ v, p.Holds v ↔ v.isValidChar ∧ Wide p.owed v ∧ b = first p.owed v
  | stray => 0x80 ≤ b ∧ (b < 0xC2 ∨ 0xF5 ≤ b)

theorem suits_opens {b value owed low high : Nat} (hlow : 0x80 ≤ low) (hhigh : high ≤ 0xBF)
    (hb : Leading owed b)
    (h : ∀ v, v / 0x40 ^ (owed + 1) = value ∧ low ≤ 0x80 + v / 0x40 ^ owed % 0x40 ∧
        0x80 + v / 0x40 ^ owed % 0x40 ≤ high ↔
      v.isValidChar ∧ Wide owed v ∧ b = first owed v) :
    (Lead.opens ⟨value, owed, low, high⟩).Suits b := by
  refine ⟨⟨hlow, hhigh⟩, hb, fun v => ?_⟩
  rw [← h v]
  exact ⟨fun h => ⟨h.value, h.low_le, h.le_high⟩, fun h => ⟨h.1, h.2.1, h.2.2⟩⟩

theorem suits_lead (b : Nat) : (lead b).Suits b := by
  unfold lead
  repeat' split
  -- The byte is a character, is stray, or opens a character with one of the ranges.
  all_goals first
    | exact ⟨by assumption, rfl⟩
    | exact ⟨by omega, by omega⟩
    | refine suits_opens (by decide) (by decide) (by rw [Leading]; omega) fun v => ?_
      rw [Nat.isValidChar, Wide, first]
      norm_num
      omega

/-- Every value that is written with several bytes has a first byte. -/
theorem exists_lead {owed v : Nat} (h : Wide owed v) :
    first owed v < 0x100 ∧ ∃ p, lead (first owed v) = .opens p ∧ p.owed = owed := by
  have hfirst : Leading owed (first owed v) := by
    rcases h with ⟨rfl, h⟩ | ⟨rfl, h⟩ | ⟨rfl, h⟩ <;> norm_num [Leading, first] <;> omega
  have hsuits := suits_lead (first owed v)
  rw [Leading] at hfirst
  refine ⟨by omega, ?_⟩
  generalize lead (first owed v) = x at hsuits
  cases x with
  | whole c => exact absurd hsuits.1 (by omega)
  | opens p =>
    obtain ⟨-, hleading, -⟩ := hsuits
    rw [Leading] at hleading
    exact ⟨p, rfl, by omega⟩
  | stray => exact absurd hsuits.2 (by omega)

theorem encodeChar_of_wide {c : Char} {owed : Nat} (h : Wide owed c.toNat) :
    encodeChar c = .ofNat (first owed c.toNat) :: tails owed c.toNat := by
  rw [encodeChar]
  rcases h with ⟨rfl, h, h'⟩ | ⟨rfl, h, h'⟩ | ⟨rfl, h, h'⟩
  · rw [if_neg (by omega), if_pos h']
    rfl
  · rw [if_neg (by omega), if_neg (by omega), if_pos h']
    rfl
  · rw [if_neg (by omega), if_neg (by omega), if_neg (by omega)]
    rfl

theorem exists_wide {c : Char} (h : ¬c.toNat < 0x80) : ∃ owed, Wide owed c.toNat := by
  have hc := toNat_lt c
  by_cases h₂ : c.toNat < 0x800
  · exact ⟨0, .inl ⟨rfl, by omega, h₂⟩⟩
  by_cases h₃ : c.toNat < 0x10000
  · exact ⟨1, .inr (.inl ⟨rfl, by omega, h₃⟩)⟩
  · exact ⟨2, .inr (.inr ⟨rfl, by omega, hc⟩)⟩

theorem toNat_ofNat_of_isValidChar {v : Nat} (h : v.isValidChar) : (Char.ofNat v).toNat = v := by
  rw [Char.ofNat, dif_pos h]
  rfl

/-! ### Texts -/

/-- The bytes of a character give the character, whatever follows. -/
theorem decodeFrom_encodeChar (c : Char) (bs : List UInt8) :
    decodeFrom none (encodeChar c ++ bs) = some c :: decodeFrom none bs := by
  by_cases h : c.toNat < 0x80
  · rw [encodeChar, if_pos h, List.singleton_append, decodeFrom, toNat_ofNat (by omega), step,
      beginning, lead, if_pos h, Char.ofNat_toNat]
    rfl
  · obtain ⟨owed, hwide⟩ := exists_wide h
    obtain ⟨hlt, p, hlead, rfl⟩ := exists_lead hwide
    have hsuits := suits_lead (first p.owed c.toNat)
    rw [hlead] at hsuits
    have hholds := (hsuits.2.2 c.toNat).2 ⟨c.valid, hwide, rfl⟩
    rw [encodeChar_of_wide hwide, List.cons_append, decodeFrom, toNat_ofNat hlt, step, beginning,
      hlead]
    dsimp only
    rw [decodeFrom_tails hholds, Char.ofNat_toNat]
    rfl

/-- Well-formed bytes begin with those of the first character. -/
theorem eq_encodeChar_append {bs : List UInt8} {cs : List Char}
    (h : decodeFrom none bs = cs.map some) :
    bs = [] ∧ cs = [] ∨ ∃ c cs' rest, cs = c :: cs' ∧ bs = encodeChar c ++ rest ∧
      decodeFrom none rest = cs'.map some := by
  cases bs with
  | nil => exact .inl ⟨rfl, List.map_eq_nil_iff.1 h.symm⟩
  | cons b bs =>
    refine .inr ?_
    have hsuits := suits_lead b.toNat
    rw [decodeFrom, step, beginning] at h
    generalize lead b.toNat = x at h hsuits
    cases x with
    | whole c =>
      obtain ⟨c', cs', rfl, hc, hcs⟩ := List.map_eq_cons_iff.1 h.symm
      obtain ⟨hlt, rfl⟩ := hsuits
      obtain rfl := Option.some.inj hc
      refine ⟨_, cs', bs, rfl, ?_, hcs.symm⟩
      rw [encodeChar, toNat_ofNat_of_isValidChar (.inl (by omega)), if_pos hlt, UInt8.ofNat_toNat]
      rfl
    | opens p =>
      obtain ⟨hsound, -, hiff⟩ := hsuits
      obtain ⟨v, rest, cs', hholds, rfl, rfl, hrest⟩ := exists_tails hsound h
      obtain ⟨hvalid, hwide, hbyte⟩ := (hiff v).1 hholds
      refine ⟨_, cs', rest, rfl, ?_, hrest⟩
      have hv := toNat_ofNat_of_isValidChar hvalid
      rw [← hv] at hwide
      rw [encodeChar_of_wide hwide, hv, ← hbyte, UInt8.ofNat_toNat]
      rfl
    | stray => cases cs <;> cases h

/-- The bytes of a text give its characters. -/
theorem decode_encode (cs : List Char) : decode (encode cs) = cs.map some := by
  rw [decode]
  induction cs with
  | nil => rfl
  | cons c cs ih =>
    show decodeFrom none (encodeChar c ++ encode cs) = _
    rw [decodeFrom_encodeChar, ih, List.map_cons]

/-- Bytes that are taken for a text are the bytes of that text. -/
theorem encode_of_decode {bs : List UInt8} {cs : List Char} (h : decode bs = cs.map some) :
    encode cs = bs := by
  rw [decode] at h
  induction cs generalizing bs with
  | nil =>
    rcases eq_encodeChar_append h with ⟨rfl, -⟩ | ⟨c, cs', rest, hcs, -⟩
    · rfl
    · cases hcs
  | cons c cs ih =>
    rcases eq_encodeChar_append h with ⟨-, hcs⟩ | ⟨c', cs', rest, hcs, rfl, hrest⟩
    · cases hcs
    · obtain ⟨rfl, rfl⟩ := List.cons.inj hcs
      show encodeChar c ++ encode cs = _
      rw [ih hrest]

theorem mapM_id_eq_some_iff {xs : List (Option Char)} {cs : List Char} :
    xs.mapM id = some cs ↔ xs = cs.map some := by
  induction xs generalizing cs with
  | nil => cases cs <;> simp
  | cons x xs ih =>
    cases x with
    | none => cases cs <;> simp
    | some c =>
      cases cs <;> simp [Option.bind_eq_some_iff, ih, and_comm]

/-- **Well-formed bytes.**  Bytes are decoded exactly if they are those of a text, and
they give this text. -/
theorem decode?_eq_some_iff {bs : List UInt8} {cs : List Char} :
    decode? bs = some cs ↔ encode cs = bs := by
  rw [decode?, mapM_id_eq_some_iff]
  refine ⟨encode_of_decode, fun h => ?_⟩
  rw [← h, decode_encode]

end Utf8

/-! ### Reading -/

/-- The bytes of a text. -/
def bytesOf (text : String) : List UInt8 :=
  Utf8.encode text.toList

/-- Bytes are read exactly if they are those of a text, and they give this text. -/
theorem readText_eq_ok_iff {bs : List UInt8} {text : String} :
    readText bs = .ok text ↔ bytesOf text = bs := by
  rw [bytesOf, ← Utf8.decode?_eq_some_iff, readText]
  cases Utf8.decode? bs with
  | none => simp
  | some cs =>
    simp only [Except.ok.injEq, Option.some.injEq]
    constructor
    · rintro rfl
      rw [String.toList_ofList]
    · rintro rfl
      rw [String.ofList_toList]

/-- Other bytes cannot be read, for the one reason that they are no text. -/
theorem readText_eq_error {bs : List UInt8} {e : ReadError} (h : readText bs = .error e) :
    e = .notText ∧ ∀ text, bytesOf text ≠ bs := by
  refine ⟨?_, fun text htext => ?_⟩
  · rw [readText] at h
    split at h <;> cases h
    rfl
  · rw [readText_eq_ok_iff.2 htext] at h
    cases h

end ScriptSyntax

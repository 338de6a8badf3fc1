/-
Bytes of texts, and of single characters.

The bytes of a text are those that strings are stored as.  Not all bytes are those of a text,
and of some one would like to know how many characters they are read as:

* `Utf8.encode_toList` — the bytes of a string are its UTF-8 form;
* `Utf8.length_decode_eq_one_iff` — bytes are read as one character exactly if there is a single
  byte or if some character begins with them.

Design notes: bytes with which a character begins are all of it, or an ill-formed stretch that
breaks off too early.  Conversely an open character can always be completed: its next byte can
be the lowest of its range, and the bytes behind that the lowest of all
(`Utf8.Opened.exists_holds`).
-/
import ScriptSyntax.Proofs.Text.Decoding

namespace ScriptSyntax

namespace Utf8

/-! ### The UTF-8 form of strings -/

theorem encodeChar_eq (c : Char) : encodeChar c = String.utf8EncodeChar c := by
  have hc : c.val.toNat < 0x110000 := toNat_lt c
  rw [encodeChar, String.utf8EncodeChar, Char.toNat]
  generalize c.val.toNat = v at hc
  -- The ranges are the same, and within each of them so are the bytes.
  split_ifs
  · rfl
  all_goals first
    | omega
    | simp only [List.cons.injEq, and_true]
      and_intros
      all_goals exact congrArg UInt8.ofNat (by omega)

/-- The bytes of a string are its UTF-8 form. -/
theorem encode_toList (s : String) : encode s.toList = s.toUTF8.data.toList := by
  have hencode : s.toList.utf8Encode = s.toUTF8 := String.utf8Encode_toList
  rw [← hencode, List.utf8Encode, List.data_toByteArray, encode, funext encodeChar_eq]

/-! ### Nothing is read from nothing -/

theorem beginning_cases (b : Nat) :
    (∃ p, lead b = .opens p ∧ beginning b = ([], some p)) ∨
      (∀ p, lead b ≠ .opens p) ∧ ∃ x, beginning b = ([x], none) := by
  rw [beginning]
  cases lead b with
  | whole c => exact .inr ⟨by simp, some c, rfl⟩
  | opens p => exact .inl ⟨p, rfl, rfl⟩
  | stray => exact .inr ⟨by simp, none, rfl⟩

/-- A byte that completes nothing leaves something open. -/
theorem isSome_of_step {opened : Option Opened} {b : Nat} (h : (step opened b).1 = []) :
    (step opened b).2.isSome := by
  cases opened with
  | none =>
    rw [step] at h ⊢
    rcases beginning_cases b with ⟨p, -, hb⟩ | ⟨-, x, hb⟩
    · rw [hb]
      rfl
    · rw [hb] at h
      cases h
  | some p =>
    by_cases hrange : p.low ≤ b ∧ b ≤ p.high
    · rw [step_some hrange.1 hrange.2] at h ⊢
      cases howed : p.owed with
      | zero =>
        rw [howed] at h
        cases h
      | succ owed => rfl
    · rw [step, if_neg hrange] at h
      cases h

theorem decodeFrom_eq_nil_iff {opened : Option Opened} {bs : List UInt8} :
    decodeFrom opened bs = [] ↔ opened = none ∧ bs = [] := by
  constructor
  · intro h
    induction bs generalizing opened with
    | nil =>
      rw [decodeFrom] at h
      cases opened with
      | none => exact ⟨rfl, rfl⟩
      | some p => cases h
    | cons b bs ih =>
      rw [decodeFrom] at h
      obtain ⟨hstep, hrest⟩ := List.append_eq_nil_iff.1 h
      have hopened := isSome_of_step hstep
      rw [(ih hrest).1] at hopened
      cases hopened
  · rintro ⟨rfl, rfl⟩
    rfl

/-! ### An open character -/

namespace Opened

/-- The range of the next byte is not empty. -/
structure Completable (p : Opened) : Prop extends p.Sound where
  range : p.low ≤ p.high

theorem Completable.exists_holds {p : Opened} (hp : p.Completable) : ∃ v, p.Holds v := by
  obtain ⟨⟨hlow, hhigh⟩, hrange⟩ := hp
  have hdiv : (p.value * 0x40 + (p.low - 0x80)) * 0x40 ^ p.owed / 0x40 ^ p.owed =
      p.value * 0x40 + (p.low - 0x80) :=
    Nat.mul_div_cancel _ (Nat.pow_pos (by decide))
  refine ⟨(p.value * 0x40 + (p.low - 0x80)) * 0x40 ^ p.owed, ?_, ?_, ?_⟩
  · rw [Nat.pow_succ, ← Nat.div_div_eq_div_mul, hdiv]
    omega
  · rw [hdiv]
    omega
  · rw [hdiv]
    omega

/-- The values that are left behind the next byte are those with this byte. -/
theorem holds_next_iff {value owed low high v : Nat} {b : UInt8}
    (hp : (⟨value, owed + 1, low, high⟩ : Opened).Sound) (hlow : low ≤ b.toNat)
    (hhigh : b.toNat ≤ high) :
    (⟨value * 0x40 + (b.toNat - 0x80), owed, 0x80, 0xBF⟩ : Opened).Holds v ↔
      (⟨value, owed + 1, low, high⟩ : Opened).Holds v ∧
        b = .ofNat (0x80 + v / 0x40 ^ (owed + 1) % 0x40) := by
  obtain ⟨hlow', hhigh'⟩ := hp
  dsimp only at hlow' hhigh'
  have hdigit := div_pow_succ v (owed + 1)
  have hbyte : (UInt8.ofNat (0x80 + v / 0x40 ^ (owed + 1) % 0x40)).toNat =
      0x80 + v / 0x40 ^ (owed + 1) % 0x40 := toNat_ofNat (by omega)
  constructor
  · rintro ⟨hvalue, -, -⟩
    dsimp only at hvalue
    refine ⟨⟨?_, ?_, ?_⟩, UInt8.toNat_inj.1 ?_⟩
    · show v / 0x40 ^ (owed + 1 + 1) = value
      omega
    · show low ≤ 0x80 + v / 0x40 ^ (owed + 1) % 0x40
      omega
    · show 0x80 + v / 0x40 ^ (owed + 1) % 0x40 ≤ high
      omega
    · rw [hbyte]
      omega
  · rintro ⟨⟨hvalue, -, -⟩, rfl⟩
    dsimp only at hvalue
    rw [hbyte]
    refine ⟨?_, ?_, ?_⟩
    · show v / 0x40 ^ (owed + 1) =
        value * 0x40 + (0x80 + v / 0x40 ^ (owed + 1) % 0x40 - 0x80)
      omega
    · show 0x80 ≤ 0x80 + v / 0x40 ^ owed % 0x40
      omega
    · show 0x80 + v / 0x40 ^ owed % 0x40 ≤ 0xBF
      omega

/-- The last byte gives the value. -/
theorem exists_holds_iff_last {value low high : Nat} {b : UInt8} {bs : List UInt8}
    (hp : (⟨value, 0, low, high⟩ : Opened).Sound) (hlow : low ≤ b.toNat) (hhigh : b.toNat ≤ high) :
    (∃ v, (⟨value, 0, low, high⟩ : Opened).Holds v ∧ b :: bs <+: tails 0 v) ↔ bs = [] := by
  obtain ⟨hlow', hhigh'⟩ := hp
  dsimp only at hlow' hhigh'
  constructor
  · rintro ⟨v, -, hbs⟩
    exact List.prefix_nil.1 (List.cons_prefix_cons.1 hbs).2
  · rintro rfl
    have hbyte : 0x80 + (value * 0x40 + (b.toNat - 0x80)) % 0x40 = b.toNat := by omega
    refine ⟨value * 0x40 + (b.toNat - 0x80), ⟨?_, ?_, ?_⟩, ?_⟩
    · show (value * 0x40 + (b.toNat - 0x80)) / 0x40 ^ 1 = value
      omega
    · rwa [Nat.pow_zero, Nat.div_one, hbyte]
    · rwa [Nat.pow_zero, Nat.div_one, hbyte]
    · have htails : tails 0 (value * 0x40 + (b.toNat - 0x80)) = [b] := by
        rw [tails, hbyte, UInt8.ofNat_toNat]
      exact htails ▸ List.prefix_rfl

theorem completable_behind (value owed : Nat) : (⟨value, owed, 0x80, 0xBF⟩ : Opened).Completable :=
  ⟨⟨Nat.le_refl 0x80, Nat.le_refl 0xBF⟩, show 0x80 ≤ 0xBF by decide⟩

/-- Bytes that make one character of an open one are such as it goes on with, perhaps up to
its end. -/
theorem Completable.length_decodeFrom_iff {p : Opened} (hp : p.Completable) (bs : List UInt8) :
    (decodeFrom (some p) bs).length = 1 ↔ ∃ v, p.Holds v ∧ bs <+: tails p.owed v := by
  induction bs generalizing p with
  | nil =>
    refine iff_of_true rfl ?_
    obtain ⟨v, hv⟩ := hp.exists_holds
    exact ⟨v, hv, List.nil_prefix⟩
  | cons b bs ih =>
    obtain ⟨value, owed, low, high⟩ := p
    by_cases hrange : low ≤ b.toNat ∧ b.toNat ≤ high
    · rw [decodeFrom, step_some hrange.1 hrange.2]
      cases owed with
      | zero =>
        rw [exists_holds_iff_last hp.toSound hrange.1 hrange.2, List.singleton_append,
          List.length_cons, Nat.add_eq_right, List.length_eq_zero_iff, decodeFrom_eq_nil_iff]
        exact and_iff_right rfl
      | succ owed =>
        rw [List.nil_append, ih (completable_behind _ _)]
        simp only [tails, List.cons_prefix_cons, holds_next_iff hp.toSound hrange.1 hrange.2,
          and_assoc]
    · -- The open character is ill-formed, and the byte makes at least one more.
      have hmore : decodeFrom none (b :: bs) ≠ [] := fun h =>
        List.cons_ne_nil b bs (decodeFrom_eq_nil_iff.1 h).2
      have hlength : (decodeFrom (some ⟨value, owed, low, high⟩) (b :: bs)).length =
          (decodeFrom none (b :: bs)).length + 1 := by
        rw [decodeFrom, step, if_neg hrange]
        rfl
      refine iff_of_false ?_ ?_
      · rw [hlength, Nat.add_eq_right, List.length_eq_zero_iff]
        exact hmore
      · rintro ⟨v, ⟨-, hlow, hhigh⟩, hbs⟩
        obtain ⟨hlow', hhigh'⟩ := hp.toSound
        dsimp only at hlow hhigh hlow' hhigh'
        refine hrange ?_
        cases owed with
        | zero =>
          obtain ⟨rfl, -⟩ := List.cons_prefix_cons.1 hbs
          rw [Nat.pow_zero, Nat.div_one] at hlow hhigh
          rw [toNat_ofNat (by omega)]
          exact ⟨hlow, hhigh⟩
        | succ owed =>
          obtain ⟨rfl, -⟩ := List.cons_prefix_cons.1 hbs
          rw [toNat_ofNat (by omega)]
          exact ⟨hlow, hhigh⟩

end Opened

/-! ### All bytes -/

theorem completable_of_lead {b : Nat} {p : Opened} (h : lead b = .opens p) : p.Completable := by
  have hsuits := suits_lead b
  rw [h] at hsuits
  refine ⟨hsuits.1, ?_⟩
  unfold lead at h
  split_ifs at h
  all_goals
    obtain rfl := Lead.opens.inj h
    dsimp only
    decide

/-- Two bytes and more are read as one character if they are the beginning of one. -/
theorem exists_lead_iff {b : UInt8} {bs : List UInt8} (hbs : bs ≠ []) :
    (∃ p, lead b.toNat = .opens p ∧ (decodeFrom (some p) bs).length = 1) ↔
      ∃ c, b :: bs <+: encodeChar c := by
  constructor
  · rintro ⟨p, hlead, hlength⟩
    have hsuits := suits_lead b.toNat
    rw [hlead] at hsuits
    obtain ⟨v, hholds, htails⟩ := ((completable_of_lead hlead).length_decodeFrom_iff bs).1 hlength
    obtain ⟨hvalid, hwide, hbyte⟩ := (hsuits.2.2 v).1 hholds
    have hv := toNat_ofNat_of_isValidChar hvalid
    refine ⟨Char.ofNat v, ?_⟩
    rw [← hv] at hwide
    rw [encodeChar_of_wide hwide, hv, ← hbyte, UInt8.ofNat_toNat]
    exact List.cons_prefix_cons.2 ⟨rfl, htails⟩
  · rintro ⟨c, hc⟩
    by_cases hnarrow : c.toNat < 0x80
    · rw [encodeChar, if_pos hnarrow] at hc
      exact absurd (List.prefix_nil.1 (List.cons_prefix_cons.1 hc).2) hbs
    · obtain ⟨owed, hwide⟩ := exists_wide hnarrow
      obtain ⟨hlt, p, hlead, rfl⟩ := exists_lead hwide
      rw [encodeChar_of_wide hwide] at hc
      obtain ⟨rfl, htails⟩ := List.cons_prefix_cons.1 hc
      have hsuits := suits_lead (first p.owed c.toNat)
      rw [hlead] at hsuits
      rw [toNat_ofNat hlt]
      have hholds := (hsuits.2.2 c.toNat).2 ⟨c.valid, hwide, rfl⟩
      exact ⟨p, hlead, ((completable_of_lead hlead).length_decodeFrom_iff bs).2 ⟨_, hholds, htails⟩⟩

/-- **One character.**  Bytes are read as one character, perhaps as the one that stands for what
is ill-formed, exactly if there is one byte or if they are the beginning of a character. -/
theorem length_decode_eq_one_iff {bs : List UInt8} :
    (decode bs).length = 1 ↔ bs.length = 1 ∨ bs ≠ [] ∧ ∃ c, bs <+: encodeChar c := by
  cases bs with
  | nil =>
    refine iff_of_false (by decide) ?_
    rintro (h | h)
    · exact absurd h (by decide)
    · exact h.1 rfl
  | cons b bs =>
    rw [decode, decodeFrom, step, List.length_cons, Nat.add_eq_right, List.length_eq_zero_iff]
    rcases beginning_cases b.toNat with ⟨p, hlead, hb⟩ | ⟨hlead, x, hb⟩
    · rw [hb, List.nil_append]
      by_cases hbs : bs = []
      · rw [hbs]
        exact iff_of_true rfl (.inl rfl)
      · rw [or_iff_right hbs, ← exists_lead_iff hbs, hlead]
        refine ⟨fun h => ⟨List.cons_ne_nil b bs, p, rfl, h⟩, ?_⟩
        rintro ⟨-, _, hp, h⟩
        obtain rfl := Lead.opens.inj hp
        exact h
    · rw [hb, List.singleton_append, List.length_cons, Nat.add_eq_right, List.length_eq_zero_iff,
        decodeFrom_eq_nil_iff, and_iff_right rfl]
      refine ⟨.inl, fun h => by_contra fun hbs => ?_⟩
      obtain ⟨p, hp, -⟩ := (exists_lead_iff hbs).2 (h.resolve_left hbs).2
      exact hlead p hp

end Utf8

end ScriptSyntax

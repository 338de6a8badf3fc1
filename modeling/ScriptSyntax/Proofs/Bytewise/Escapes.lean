/-
Escapes byte by byte.

The digits of an escape spell bytes.  One can put zeros in front of them, up to a whole number of
groups, and take the low byte of each group; or one can end a byte wherever a whole number of
groups follows.  Both give the same bytes.

* `ByteCursor.map_groups` and `Radix.bytesFrom_zeros` — the groups, and the zeros;
* `ByteCursor.readDigits_before` — digits are read alike in bytes and in characters;
* `ByteCursor.readEscape_narrow` — so are escapes, if a single byte stands behind the backslash;
* `ByteCursor.readEscape_wide` — otherwise the escape ends in the middle of a character.

Design notes: all digits are single bytes, so the cursor sees no byte of another character as one.
-/
import ScriptSyntax.Proofs.Bytewise.Cursor
import ScriptSyntax.Proofs.Lexical.ByteEscapes

namespace ScriptSyntax

/-- Zeros in front change nothing as long as no byte ends among them. -/
theorem Radix.bytesFrom_zeros {r : Radix} {k : Nat} {ds : List Nat}
    (h : ∀ j < k, (j + ds.length) % r.group ≠ 0) :
    r.bytesFrom 0 (List.replicate k 0 ++ ds) = r.bytesFrom 0 ds := by
  induction k with
  | zero => rfl
  | succ k ih =>
    have hlength : (List.replicate k 0 ++ ds).length % r.group ≠ 0 := by
      rw [List.length_append, List.length_replicate]
      exact h k (Nat.lt_succ_self k)
    rw [List.replicate_succ, List.cons_append, Radix.bytesFrom, if_neg hlength, Nat.zero_mul]
    exact ih fun j hj => h j (Nat.lt_succ_of_lt hj)

namespace ByteCursor

open Utf8

variable {r : Radix} {c d : Char} {b : UInt8} {ds s : List Char} {p : Span}

/-! ### Groups -/

/-- The low byte of a group is that of the number that its digits spell. -/
theorem lowByte_eq (r : Radix) (ds : List Char) :
    lowByte r ds = .ofNat (Nat.ofDigits r.base (ds.map Radix.value).reverse) := by
  rw [lowByte, Nat.ofDigits_eq_foldr, List.foldr_reverse, List.foldl_map]
  simp only [Nat.cast_id, Nat.add_comm, Nat.mul_comm]

theorem map_groups (hgroup : 0 < r.group) (h : ds.length % r.group = 0) :
    (groups r.group ds).map (lowByte r) = r.bytesFrom 0 (ds.map Radix.value) := by
  fun_induction groups r.group ds with
  | case1 ds hnil =>
    obtain rfl : ds = [] := hnil.resolve_right hgroup.ne'
    rfl
  | case2 ds hne ih =>
    rw [not_or] at hne
    have hle : r.group ≤ ds.length :=
      Nat.le_of_dvd (List.length_pos_iff.2 hne.1) (Nat.dvd_of_mod_eq_zero h)
    have hfirst : (ds.take r.group).length = r.group := List.length_take_of_le hle
    have hrest : (ds.drop r.group).length % r.group = 0 := by
      rw [List.length_drop, ← Nat.mod_eq_sub_mod hle, h]
    have hsplit : ds.map Radix.value =
        (ds.take r.group).map Radix.value ++ (ds.drop r.group).map Radix.value := by
      rw [← List.map_append, List.take_append_drop]
    have htake : (ds.take r.group).map Radix.value ≠ [] := by
      rw [ne_eq, ← List.length_eq_zero_iff, List.length_map, hfirst]
      exact hne.2
    rw [List.map_cons, ih hrest, hsplit,
      Radix.bytesFrom_append htake (by rw [List.length_map, hfirst]) (by rwa [List.length_map]),
      Nat.zero_mul, Nat.zero_add, lowByte_eq]

/-- With fewer zeros than the padding the number of digits is no multiple of the group. -/
theorem add_mod_ne_zero {size n j : Nat} (hsize : 0 < size) (h : j < (size - n % size) % size) :
    (j + n) % size ≠ 0 := by
  have hlt := Nat.mod_lt n hsize
  have hpos : n % size ≠ 0 := by
    intro hzero
    rw [hzero, Nat.sub_zero, Nat.mod_self] at h
    exact Nat.not_lt_zero j h
  rw [Nat.mod_eq_of_lt (by omega)] at h
  rw [← Nat.add_mod_mod, Nat.mod_eq_of_lt (by omega)]
  omega

theorem padding_add_mod {size : Nat} (hsize : 0 < size) (n : Nat) :
    ((size - n % size) % size + n) % size = 0 := by
  have hle := (Nat.mod_lt n hsize).le
  rw [Nat.mod_add_mod, ← Nat.add_mod_mod, Nat.sub_add_cancel hle, Nat.mod_self]

/-- Digits in groups, the first one filled up with zeros, spell the same bytes. -/
theorem map_groups_padding (hgroup : 0 < r.group) (ds : List Char) :
    (groups r.group (padding r.group ds ++ ds)).map (lowByte r) = r.bytes (ds.map Radix.value) := by
  have hlength : (padding r.group ds ++ ds).length % r.group = 0 := by
    rw [List.length_append, padding, List.length_replicate]
    exact padding_add_mod hgroup ds.length
  have hzero : Radix.value '0' = 0 := rfl
  rw [map_groups hgroup hlength, List.map_append, padding, List.map_replicate, hzero]
  refine Radix.bytesFrom_zeros fun j hj => ?_
  rw [List.length_map]
  exact add_mod_ne_zero hgroup hj

/-! ### Digits -/

theorem narrow_radixDigit (hr : r.base ≤ 36) : Narrow r.isDigit := by
  intro c hc
  have hlt : Radix.value c < 36 := (of_decide_eq_true hc).trans_le hr
  unfold Radix.value at hlt
  split_ifs at hlt with hdigit hlower hupper
  · exact narrow_isDigit c hdigit
  · exact Nat.lt_of_le_of_lt (Char.le_def.1 hlower.2) (by decide)
  · exact Nat.lt_of_le_of_lt (Char.le_def.1 hupper.2) (by decide)
  · exact absurd hlt (Nat.lt_irrefl 36)

/-- The cursor sees the digits that stand there. -/
theorem digits_ahead (hr : r.base ≤ 36) (p : Span) (s : List Char) :
    r.digits (before p s).ahead = r.digits s := by
  have hdigits : ∀ {cs d}, cs.head? = some d →
      r.digits cs = (cs.takeWhile r.isDigit).take (r.limit (Radix.value d)) := by
    intro cs d hd
    rw [Radix.digits_eq hd, List.take_takeWhile]
  cases s with
  | nil => rfl
  | cons c s =>
    by_cases hc : c.toNat < 0x80
    · rw [hdigits (peek_narrow hc p s), hdigits List.head?_cons,
        takeWhile_ahead (narrow_radixDigit hr)]
    · -- No digit comes first, whatever the first byte is taken for.
      obtain ⟨d, hpeek, -⟩ := exists_peek_wide hc p s
      have hnot : ¬ r.isDigit c := fun h => hc (narrow_radixDigit hr c h)
      rw [hdigits hpeek, hdigits List.head?_cons, takeWhile_ahead (narrow_radixDigit hr),
        List.takeWhile_cons_of_neg hnot, List.take_nil, List.take_nil]

/-- **Digits are read alike in bytes and in characters.** -/
theorem readDigits_before (hgroup : 0 < r.group) (hr : r.base ≤ 36) (b : UInt8) (out : List UInt8)
    (p : Span) (s : List Char) :
    readDigits r b out (before p s) =
      if r.digits s = [] then (out ++ [b], before p s)
      else (out ++ r.bytes ((r.digits s).map Radix.value),
        before (p.after (r.digits s)) (s.drop (r.digits s).length)) := by
  have hnarrow : ∀ d ∈ r.digits s, d.toNat < 0x80 := fun d hd =>
    narrow_radixDigit hr d ((r.isRun_digits s).isDigit d hd)
  have hadvance := advanceBy_narrow hnarrow p (s.drop (r.digits s).length)
  rw [Radix.digits_append_drop] at hadvance
  rw [readDigits, digits_ahead hr, map_groups_padding hgroup, hadvance]

/-! ### Escapes -/

theorem control?_narrow {v : UInt8} (h : Escape.control? c = some v) : c.toNat < 0x80 := by
  unfold Escape.control? at h
  split at h
  case h_9 => exact nomatch h
  all_goals decide

theorem readEscape_of_unread {x : ByteCursor} {bs : List UInt8} (h : x.advance.unread = b :: bs)
    (out : List UInt8) :
    x.readEscape out =
      match Escape.control? (charOf b), Radix.ofLetter? (charOf b) with
      | some v, _ => (out ++ [v], x.advance.advance)
      | none, some r => readDigits r b out x.advance.advance
      | none, none => (out ++ [b], x.advance.advance) := by
  rw [readEscape]
  split
  · next hnil => exact absurd (h.symm.trans hnil) (List.cons_ne_nil _ _)
  · next hcons =>
    obtain ⟨rfl, -⟩ := List.cons.inj (hcons.symm.trans h)
    rfl

theorem group_pos_of_ofLetter? (h : Radix.ofLetter? c = some r) : 0 < r.group := by
  unfold Radix.ofLetter? at h
  split at h
  case h_5 => exact nomatch h
  all_goals
    obtain rfl := Option.some.inj h
    decide

/-- What follows a backslash is read alike in bytes and in characters if it begins with a single
byte, or if nothing follows. -/
theorem readEscape_narrow (hs : s.head?.all (·.toNat < 0x80)) (out : List UInt8) (p : Span) :
    (before p ('\\' :: s)).readEscape out =
      (out ++ (Escape.read s).bytes,
        before (p.after ('\\' :: (Escape.read s).taken)) (Escape.read s).rest) := by
  have hadvance := advance_narrow (c := '\\') (by decide) p s
  cases s with
  | nil =>
    rw [readEscape, hadvance]
    exact congrArg (·, before _ []) (List.append_nil out).symm
  | cons d s =>
    have hd : d.toNat < 0x80 := by simpa using hs
    obtain ⟨b, bs, hunread, hb, hbytes⟩ := exists_unread_narrow hd (p.step '\\') s
    rw [← hadvance] at hunread
    rw [readEscape_of_unread hunread, hadvance, advance_narrow hd, hb]
    cases hcontrol : Escape.control? d with
    | some v =>
      rw [Escape.read_of_control? hcontrol]
      rfl
    | none =>
      cases hr : Radix.ofLetter? d with
      | some r =>
        have hbase : r.base ≤ 36 := (Radix.base_le_of_ofLetter? hr).trans (by decide)
        dsimp only
        rw [Escape.read_of_ofLetter? hcontrol hr, hbytes,
          readDigits_before (group_pos_of_ofLetter? hr) hbase]
        split <;> rfl
      | none =>
        rw [Escape.read_other hcontrol hr, hbytes]
        rfl

/-- In front of a character of several bytes only the first of them is taken. -/
theorem readEscape_wide (hd : ¬ d.toNat < 0x80) (out : List UInt8) (p : Span) (s : List Char) :
    ∃ b b' bs, (before (p.step '\\') (d :: s)).unread = b :: b' :: bs ∧ 0x80 ≤ b.toNat ∧
      0x80 ≤ b'.toNat ∧ (before p ('\\' :: d :: s)).readEscape out =
        (out ++ [b], (before (p.step '\\') (d :: s)).advance) := by
  have hadvance := advance_narrow (c := '\\') (by decide) p (d :: s)
  obtain ⟨b, b', bs, hunread, hb, hb'⟩ := exists_unread_wide hd (p.step '\\') s
  refine ⟨b, b', bs, hunread, hb, hb', ?_⟩
  rw [← hadvance] at hunread
  rw [readEscape_of_unread hunread, hadvance, eq_none_of_wide control?_narrow (charOf_wide hb),
    eq_none_of_wide Escape.toNat_lt_of_ofLetter? (charOf_wide hb)]

end ByteCursor

end ScriptSyntax

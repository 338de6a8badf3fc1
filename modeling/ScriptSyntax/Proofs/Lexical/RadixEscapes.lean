/-
The meaning of digits in escapes.

The digits behind a letter are a number.  As many of them are read as there are, up to a limit,
and their number is cut into bytes from the right: each byte is the low byte of what a group of
digits is worth at its place.  Where a group is worth one byte, these are the bytes of the number,
the highest first.

* `Radix.letters` are the letters, each with the base, the group and the limit that it announces;
* `Radix.number` is the number that digits spell, and `Radix.Cuts` says which bytes it is cut into;
* `Radix.isGreatest_digits` — the longest run of digits is read;
* `Radix.cuts_bytes` — digits in groups are bytes by place;
* `radixEscape_bytes` — so an escape is read, in a text and from any bytes.

Design notes: the first group may be short.  What is left of the digits without it are whole
groups, and the induction takes one group after the other from the left.
-/
import Mathlib.Order.Bounds.Basic
import ScriptSyntax.Proofs.Bytewise.Escapes

namespace ScriptSyntax

namespace Radix

variable {r : Radix} {c : Char} {ds es s : List Char} {letter bytes : List UInt8} {n : Nat}

/-- The letters that announce digits.  With each go the base, the digits of a byte, and how many
digits are read at most, given the value of the first. -/
def letters : List (Char × Radix) :=
  [('u', ⟨16, 2, fun _ => 8⟩), ('x', ⟨16, 2, fun _ => 8⟩),
    ('o', ⟨8, 4, fun first => if first > 3 then 10 else 11⟩), ('B', ⟨2, 8, fun _ => 32⟩)]

theorem ofLetter?_of_mem_letters (h : (c, r) ∈ letters) : ofLetter? c = some r := by
  simp only [letters, List.mem_cons, Prod.mk.injEq, List.not_mem_nil, or_false] at h
  rcases h with ⟨rfl, rfl⟩ | ⟨rfl, rfl⟩ | ⟨rfl, rfl⟩ | ⟨rfl, rfl⟩ <;> rfl

theorem one_lt_base (h : (c, r) ∈ letters) : 1 < r.base := by
  simp only [letters, List.mem_cons, Prod.mk.injEq, List.not_mem_nil, or_false] at h
  rcases h with ⟨-, rfl⟩ | ⟨-, rfl⟩ | ⟨-, rfl⟩ | ⟨-, rfl⟩ <;> decide

/-! ### The longest run -/

/-- How many digits can be taken from the front of a text. -/
def runs (r : Radix) (s : List Char) : Set Nat :=
  {n | n ≤ s.length ∧ (∀ d ∈ s.take n, r.isDigit d) ∧ ∀ d ∈ s.head?, n ≤ r.limit (value d)}

theorem take_length_digits (r : Radix) (s : List Char) :
    s.take (r.digits s).length = r.digits s := by
  exact (List.prefix_iff_eq_take.1 ⟨_, r.digits_append_drop s⟩).symm

/-- As many digits are read as there are, up to the limit. -/
theorem isGreatest_digits (r : Radix) (s : List Char) :
    IsGreatest (r.runs s) (r.digits s).length := by
  constructor
  · refine ⟨?_, ?_, ?_⟩
    · have hlength := congrArg List.length (r.digits_append_drop s)
      rw [List.length_append] at hlength
      omega
    · rw [take_length_digits]
      exact (r.isRun_digits s).isDigit
    · intro d hd
      rw [digits_eq hd]
      exact (List.takeWhile_prefix _).length_le.trans (List.length_take_le _ _)
  · rintro n ⟨hlength, hdigits, hlimit⟩
    cases s with
    | nil => exact hlength
    | cons c s =>
      have hle := hlimit c rfl
      -- The digits in question stand in front of all that may be read.
      have htake : (c :: s).take (r.limit (value c)) =
          (c :: s).take n ++ ((c :: s).drop n).take (r.limit (value c) - n) := by
        rw [← List.take_add, Nat.add_sub_cancel' hle]
      rw [digits_eq (s := c :: s) rfl, htake, List.takeWhile_append_of_pos hdigits,
        List.length_append, List.length_take_of_le hlength]
      exact Nat.le_add_right _ _

/-! ### Numbers -/

/-- The number that digits spell. -/
def number (r : Radix) (ds : List Char) : Nat :=
  Nat.ofDigits r.base (ds.map value).reverse

theorem number_append (r : Radix) (ds es : List Char) :
    r.number (ds ++ es) = r.number es + r.base ^ es.length * r.number ds := by
  rw [number, List.map_append, List.reverse_append, Nat.ofDigits_append, List.length_reverse,
    List.length_map]
  rfl

theorem number_lt (hbase : 1 < r.base) (hds : ∀ d ∈ ds, r.isDigit d) :
    r.number ds < r.base ^ ds.length := by
  have hlt := Nat.ofDigits_lt_base_pow_length (b := r.base) (l := (ds.map value).reverse) hbase
    fun v hv => by
      obtain ⟨d, hd, rfl⟩ := List.mem_map.1 (List.mem_reverse.1 hv)
      exact of_decide_eq_true (hds d hd)
  rwa [List.length_reverse, List.length_map] at hlt

/-! ### Bytes by place -/

/-- The byte that is worth a group of digits, counted from the right. -/
def byteAt (r : Radix) (v i : Nat) : UInt8 :=
  .ofNat (v / r.base ^ (r.group * i) % r.base ^ r.group)

/-- A byte is not changed by what stands in front of it. -/
theorem byteAt_add (hbase : 1 < r.base) (v w : Nat) {i q : Nat} (h : i < q) :
    r.byteAt (v + r.base ^ (r.group * q) * w) i = r.byteAt v i := by
  obtain ⟨k, rfl⟩ := Nat.exists_eq_add_of_lt h
  have hpow : r.base ^ (r.group * (i + k + 1)) =
      r.base ^ (r.group * i) * (r.base ^ r.group * r.base ^ (r.group * k)) := by
    rw [← Nat.pow_add, ← Nat.pow_add]
    congr 1
    ring
  have hpos : 0 < r.base ^ (r.group * i) := Nat.pow_pos (Nat.zero_lt_of_lt hbase)
  rw [byteAt, byteAt, hpow, Nat.mul_assoc, Nat.add_mul_div_left _ _ hpos, Nat.mul_assoc,
    Nat.add_mul_mod_self_left]

/-- The first byte is what stands in front of all others. -/
theorem byteAt_first (hbase : 1 < r.base) {v w q : Nat} (hv : v < r.base ^ (r.group * q))
    (hw : w < r.base ^ r.group) : r.byteAt (v + r.base ^ (r.group * q) * w) q = .ofNat w := by
  have hpos : 0 < r.base ^ (r.group * q) := Nat.pow_pos (Nat.zero_lt_of_lt hbase)
  rw [byteAt, Nat.add_mul_div_left _ _ hpos, Nat.div_eq_of_lt hv, Nat.zero_add,
    Nat.mod_eq_of_lt hw]

/-- The number of groups, of which the first may be short. -/
def groupCount (r : Radix) (n : Nat) : Nat :=
  (n + r.group - 1) / r.group

/-- A group more in front. -/
theorem groupCount_add (hgroup : 0 < r.group) {n q : Nat} (hpos : 0 < n) (hn : n ≤ r.group) :
    r.groupCount (n + r.group * q) = q + 1 := by
  have hlt : n - 1 < r.group := by omega
  rw [groupCount, show n + r.group * q + r.group - 1 = n - 1 + r.group * (q + 1) by
      rw [Nat.mul_succ]; omega,
    Nat.add_mul_div_left _ _ hgroup, Nat.div_eq_of_lt hlt, Nat.zero_add]

theorem le_mul_groupCount (hgroup : 0 < r.group) (n : Nat) : n ≤ r.group * r.groupCount n := by
  have hdivision := Nat.div_add_mod (n + r.group - 1) r.group
  have hlt := Nat.mod_lt (n + r.group - 1) hgroup
  rw [groupCount]
  omega

theorem groupCount_mul (hgroup : 0 < r.group) (q : Nat) : r.groupCount (r.group * q) = q := by
  cases q with
  | zero => exact Nat.div_eq_of_lt (by omega)
  | succ q =>
    have hadd := groupCount_add hgroup (q := q) hgroup (Nat.le_refl _)
    rwa [Nat.add_comm, ← Nat.mul_succ] at hadd

/-- Digits are a group, perhaps a short one, and whole groups behind it. -/
theorem exists_groups (hgroup : 0 < r.group) (hne : ds ≠ []) :
    ∃ front back q, ds = front ++ back ∧ front ≠ [] ∧ front.length ≤ r.group ∧
      back.length = r.group * q := by
  have hpos := List.length_pos_iff.2 hne
  have hdivision := Nat.div_add_mod (ds.length - 1) r.group
  have hlt := Nat.mod_lt (ds.length - 1) hgroup
  have hfront : (ds.take (ds.length - r.group * ((ds.length - 1) / r.group))).length =
      (ds.length - 1) % r.group + 1 := by
    rw [List.length_take]
    omega
  refine ⟨_, _, (ds.length - 1) / r.group,
    (List.take_append_drop (ds.length - r.group * ((ds.length - 1) / r.group)) ds).symm, ?_, ?_, ?_⟩
  · rw [← List.length_pos_iff, hfront]
    exact Nat.succ_pos _
  · rw [hfront]
    exact hlt
  · rw [List.length_drop]
    omega

/-- **Digits in groups are bytes by place.** -/
theorem bytes_eq (hgroup : 0 < r.group) (hbase : 1 < r.base) (hds : ∀ d ∈ ds, r.isDigit d) :
    r.bytes (ds.map value) =
      ((List.range (r.groupCount ds.length)).map (r.byteAt (r.number ds))).reverse := by
  induction hn : ds.length using Nat.strong_induction_on generalizing ds with
  | _ n ih =>
    subst hn
    by_cases hne : ds = []
    · subst hne
      rw [List.length_nil, ← Nat.mul_zero r.group, groupCount_mul hgroup]
      rfl
    -- The first group is read as one byte, and whole groups are left.
    obtain ⟨front, back, q, rfl, hfront, hlength, hback⟩ := exists_groups hgroup hne
    have hpos := List.length_pos_iff.2 hfront
    obtain ⟨hfrontDigits, hbackDigits⟩ := List.forall_mem_append.1 hds
    have hrest := ih back.length (by rw [List.length_append]; omega) hbackDigits rfl
    have hv : r.number back < r.base ^ (r.group * q) := hback ▸ number_lt hbase hbackDigits
    have hw : r.number front < r.base ^ r.group :=
      (number_lt hbase hfrontDigits).trans_le
        (Nat.pow_le_pow_right (Nat.zero_lt_of_lt hbase) hlength)
    have hfirst : r.bytes ((front ++ back).map value) =
        .ofNat (r.number front) :: r.bytes (back.map value) := by
      have hne : front.map value ≠ [] := List.map_eq_nil_iff.not.2 hfront
      have hshort : (front.map value).length ≤ r.group := by rwa [List.length_map]
      have hwhole : (back.map value).length % r.group = 0 := by
        rw [List.length_map, hback, Nat.mul_mod_right]
      rw [List.map_append, bytes, bytesFrom_append hne hshort hwhole, Nat.zero_mul, Nat.zero_add]
      rfl
    rw [hfirst, hrest, hback, List.length_append, hback, groupCount_add hgroup hpos hlength,
      groupCount_mul hgroup, number_append, hback, List.range_succ, List.map_append,
      List.reverse_append, List.map_singleton, List.reverse_singleton, List.singleton_append,
      byteAt_first hbase hv hw]
    congr 2
    refine List.map_congr_left fun i hi => ?_
    exact (byteAt_add hbase _ _ (List.mem_range.1 hi)).symm

/-- Digits of a byte, one after the other, are the number again. -/
theorem ofDigits_range (b v m : Nat) :
    Nat.ofDigits b ((List.range m).map fun i => v / b ^ i % b) = v % b ^ m := by
  induction m with
  | zero => rw [List.range_zero, List.map_nil, Nat.ofDigits_nil, Nat.pow_zero, Nat.mod_one]
  | succ m ih =>
    rw [List.range_succ, List.map_append, List.map_singleton, Nat.ofDigits_append, ih,
      Nat.ofDigits_singleton, List.length_map, List.length_range, Nat.mod_pow_succ]

/-- Bytes that some digits are cut into. -/
structure Cuts (r : Radix) (ds : List Char) (bytes : List UInt8) : Prop where
  /-- There is one byte for each group, also if the first group is short. -/
  length : bytes.length = (ds.length + r.group - 1) / r.group
  /-- From the right, a byte is the low byte of what its group is worth. -/
  byte : ∀ i < bytes.length, bytes.reverse[i]?.map UInt8.toNat =
    some (r.number ds / r.base ^ (r.group * i) % r.base ^ r.group % 0x100)
  /-- If a group is worth a byte, the bytes are those of the number, the highest first. -/
  bigEndian : r.base ^ r.group = 0x100 →
    Nat.ofDigits 0x100 (bytes.map UInt8.toNat).reverse = r.number ds

theorem cuts_bytes (hgroup : 0 < r.group) (hbase : 1 < r.base) (hds : ∀ d ∈ ds, r.isDigit d) :
    r.Cuts ds (r.bytes (ds.map value)) := by
  have hlength : (r.bytes (ds.map value)).length = r.groupCount ds.length := by
    rw [bytes_eq hgroup hbase hds, List.length_reverse, List.length_map, List.length_range]
  refine ⟨hlength, ?_, ?_⟩
  · intro i hi
    rw [hlength] at hi
    rw [bytes_eq hgroup hbase hds, List.reverse_reverse, List.getElem?_map,
      List.getElem?_range hi]
    exact congrArg some UInt8.toNat_ofNat'
  · intro hworth
    have hbytes : ((r.bytes (ds.map value)).map UInt8.toNat).reverse =
        (List.range (r.groupCount ds.length)).map fun i => r.number ds / 0x100 ^ i % 0x100 := by
      rw [bytes_eq hgroup hbase hds, List.map_reverse, List.reverse_reverse, List.map_map]
      refine List.map_congr_left fun i _ => ?_
      show (r.byteAt (r.number ds) i).toNat = _
      rw [byteAt, UInt8.toNat_ofNat', Nat.pow_mul, hworth]
      exact Nat.mod_mod _ _
    -- There are bytes enough for the whole number.
    have hlt : r.number ds < 0x100 ^ r.groupCount ds.length := by
      rw [← hworth, ← Nat.pow_mul]
      exact (number_lt hbase hds).trans_le
        (Nat.pow_le_pow_right (Nat.zero_lt_of_lt hbase) (le_mul_groupCount hgroup _))
    rw [hbytes, ofDigits_range, Nat.mod_eq_of_lt hlt]

/-! ### Reading -/

/-- Behind a letter that announces digits `n` characters of `s` are taken.  These are digits, as
many as there are up to the limit, and they are cut into the bytes; or there are none, and the
bytes are those of the letter. -/
structure Takes (r : Radix) (s : List Char) (n : Nat) (letter bytes : List UInt8) : Prop where
  longest : IsGreatest (r.runs s) n
  none : n = 0 → bytes = letter
  some : n ≠ 0 → r.Cuts (s.take n) bytes

theorem takes_digits (hgroup : 0 < r.group) (hbase : 1 < r.base) (s : List Char)
    (letter : List UInt8) :
    r.Takes s (r.digits s).length letter
      (if r.digits s = [] then letter else r.bytes ((r.digits s).map value)) := by
  refine ⟨r.isGreatest_digits s, fun hzero => ?_, fun hne => ?_⟩
  · rw [if_pos (List.length_eq_zero_iff.1 hzero)]
  · rw [if_neg fun hnil => hne (List.length_eq_zero_iff.2 hnil), take_length_digits]
    exact cuts_bytes hgroup hbase (r.isRun_digits s).isDigit

end Radix

open Radix Utf8 TextLiteral

variable {c : Char} {r : Radix}

/-- An escape is the letter and the digits that are taken. -/
theorem Escape.read_letter (h : ofLetter? c = some r) (s : List Char) :
    read (c :: s) =
      ⟨if r.digits s = [] then encodeChar c else r.bytes ((r.digits s).map value),
        c :: s.take (r.digits s).length, s.drop (r.digits s).length⟩ := by
  rw [read_of_ofLetter? (control?_of_ofLetter? h) h, take_length_digits]
  split
  · next hnil =>
    rw [hnil]
    rfl
  · rfl

/-- From any bytes that an escape begins with. -/
theorem ByteCursor.readEscape_letter {x : ByteCursor} (h : ofLetter? c = some r)
    (hpeek : x.advance.peek = some c) (out : List UInt8) :
    x.readEscape out =
      (out ++ if r.digits x.advance.advance.ahead = [] then encodeChar c
        else r.bytes ((r.digits x.advance.advance.ahead).map value),
        x.advance.advance.advanceBy (r.digits x.advance.advance.ahead).length) := by
  obtain ⟨b, bs, hunread, hb⟩ : ∃ b bs, x.advance.unread = b :: bs ∧ charOf b = c := by
    obtain ⟨bs, hbs⟩ := List.head?_eq_some_iff.1 hpeek
    obtain ⟨b, bs, hunread, hb, -⟩ := List.map_eq_cons_iff.1 hbs
    exact ⟨b, bs, hunread, hb⟩
  have hletter : encodeChar c = [b] := by
    rw [encodeChar_narrow (Escape.toNat_lt_of_ofLetter? h), ← hb, toNat_charOf, UInt8.ofNat_toNat]
  rw [readEscape_of_unread hunread, hb, Escape.control?_of_ofLetter? h, h, hletter]
  dsimp only
  rw [readDigits]
  split
  · next hnil =>
    rw [hnil]
    rfl
  · rw [map_groups_padding (group_pos_of_ofLetter? h)]

/-- Digits are ordinary characters of a string. -/
theorem TextLiteral.unescape_digits (hr : r.base ≤ 36) {ds : List Char}
    (hds : ∀ d ∈ ds, r.isDigit d) (t : List Char) :
    unescape (ds ++ t) = encode ds ++ unescape t := by
  have hvalue : ∀ {d}, r.isDigit d → value d ≠ 36 := fun hd =>
    ((of_decide_eq_true hd).trans_le hr).ne
  induction ds with
  | nil => rfl
  | cons d ds ih =>
    obtain ⟨hd, hds⟩ := List.forall_mem_cons.1 hds
    have hescape : d ≠ '\\' := by
      rintro rfl
      exact hvalue hd rfl
    have hdropped : ¬ isDropped d := by
      intro hdrop
      simp only [isDropped, Bool.or_eq_true, beq_iff_eq] at hdrop
      rcases hdrop with (((rfl | rfl) | rfl) | rfl) | rfl <;> exact hvalue hd rfl
    rw [List.cons_append, unescape, if_neg hescape, if_neg hdropped, ih hds, encode_cons,
      List.append_assoc]

/-- **The meaning of digits in escapes.**  Behind a letter that announces digits the longest run
of digits is taken, up to the limit, and cut into bytes from the right; without digits the letter
stands for itself.  So it is in a text, where digits beyond the limit are ordinary characters, and
so it is from any bytes. -/
theorem radixEscape_bytes (h : (c, r) ∈ letters) :
    (∀ s : List Char, ∃ n bytes, r.Takes s n (encodeChar c) bytes ∧
      Escape.read (c :: s) = ⟨bytes, c :: s.take n, s.drop n⟩ ∧
      (∀ p out, (ByteCursor.before p ('\\' :: c :: s)).readEscape out =
        (out ++ bytes, .before (p.after ('\\' :: c :: s.take n)) (s.drop n))) ∧
      ∀ ds t, s.drop n = ds ++ t → (∀ d ∈ ds, r.isDigit d) →
        unescape ('\\' :: c :: s) = bytes ++ encode ds ++ unescape t) ∧
    ∀ x : ByteCursor, x.advance.peek = some c →
      ∃ n bytes, r.Takes x.advance.advance.ahead n (encodeChar c) bytes ∧
        ∀ out, x.readEscape out = (out ++ bytes, x.advance.advance.advanceBy n) := by
  have hletter := ofLetter?_of_mem_letters h
  have htakes := takes_digits (ByteCursor.group_pos_of_ofLetter? hletter) (one_lt_base h)
  have hle : r.base ≤ 36 := (base_le_of_ofLetter? hletter).trans (by decide)
  constructor
  · intro s
    have hread := Escape.read_letter hletter s
    refine ⟨_, _, htakes s _, hread, ?_, ?_⟩
    · intro p out
      have hnarrow : (c :: s).head?.all (·.toNat < 0x80) :=
        decide_eq_true (Escape.toNat_lt_of_ofLetter? hletter)
      rw [ByteCursor.readEscape_narrow hnarrow, hread]
    · intro ds t hdrop hds
      rw [unescape, if_pos rfl, hread, hdrop, unescape_digits hle hds, List.append_assoc]
  · intro x hpeek
    exact ⟨_, _, htakes _ _, ByteCursor.readEscape_letter hletter hpeek⟩

/-- Of thirteen octal digits eleven are read, and the two others stand for themselves.  A byte
that is no character ends the digits as well. -/
theorem radixEscape_bytes_octal :
    ('o', octal) ∈ letters ∧
      octal.Takes "1234567012345".toList 11 (encodeChar 'o') [0x53, 0x77, 0x53] ∧
      unescape "\\o1234567012345".toList = [0x53, 0x77, 0x53, 0x34, 0x35] ∧
      (⟨[0x5C, 0x6F, 0x37, 0xFF], .start, 1⟩ : ByteCursor).advance.peek = some 'o' ∧
      ∃ n bytes, octal.Takes ['7', 'ÿ'] n (encodeChar 'o') bytes ∧
        ∀ out, (⟨[0x5C, 0x6F, 0x37, 0xFF], .start, 1⟩ : ByteCursor).readEscape out =
          (out ++ bytes, (⟨[0x37, 0xFF], ⟨1, 3⟩, 1⟩ : ByteCursor).advanceBy n) := by
  have hmem : ('o', octal) ∈ letters :=
    List.mem_cons_of_mem _ (List.mem_cons_of_mem _ List.mem_cons_self)
  have heval : Escape.read ('o' :: "1234567012345".toList) =
      ⟨[0x53, 0x77, 0x53], 'o' :: "12345670123".toList, ['4', '5']⟩ := by
    decide +kernel
  obtain ⟨n, bytes, htakes, hread, -, htext⟩ := (radixEscape_bytes hmem).1 "1234567012345".toList
  obtain ⟨rfl, htaken, hdrop⟩ := Escape.Piece.mk.inj (hread.symm.trans heval)
  obtain rfl : n = 11 := by
    have hall : "1234567012345".toList.length = 13 := by decide +kernel
    have hlength : ("1234567012345".toList.drop n).length = 2 := by rw [hdrop]; rfl
    rw [List.length_drop, hall] at hlength
    omega
  have hpeek : (⟨[0x5C, 0x6F, 0x37, 0xFF], .start, 1⟩ : ByteCursor).advance.peek = some 'o' := by
    decide
  refine ⟨hmem, htakes, ?_, hpeek, (radixEscape_bytes hmem).2 _ hpeek⟩
  have hdigits : ['4', '5'].all octal.isDigit := by decide
  have hcontent : "\\o1234567012345".toList = '\\' :: 'o' :: "1234567012345".toList := by
    decide +kernel
  rw [hcontent, htext ['4', '5'] [] hdrop (List.all_eq_true.1 hdigits), unescape]
  rfl

end ScriptSyntax

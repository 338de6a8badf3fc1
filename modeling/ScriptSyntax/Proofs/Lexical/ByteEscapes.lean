/-
Texts written with escapes for bytes.

The bytes of a text can be cut into groups, and each group written as a letter and digits.  A
string that is made of such escapes is the text, wherever it has been cut.

* `ByteForm` says how a byte is written as digits, and `ByteForm.all` in which ways;
* `ByteGroup.IsWritten` — how the bytes of a group are written;
* `Radix.bytesFrom_append` — the digits of a byte are read together;
* `tokenize_byteEscapes` — bytes that are written in groups are read as the text.

Design notes: an escape takes all digits that follow it, up to a limit.  Within the limit is
whatever stands in a group, and behind it the backslash of the next group.
-/
import Mathlib.Data.Nat.Digits.Lemmas
import ScriptSyntax.Proofs.Lexical.TextUnits
import ScriptSyntax.Proofs.Text.Bytes

namespace ScriptSyntax

/-! ### Digits of a byte -/

namespace Radix

variable {r : Radix} {ds es : List Nat}

/-- Digits in front of whole groups, and no more than one byte has, are read as one byte. -/
theorem bytesFrom_append (hne : ds ≠ []) (hds : ds.length ≤ r.group)
    (hes : es.length % r.group = 0) (high : Nat) :
    r.bytesFrom high (ds ++ es) =
      .ofNat (high * r.base ^ ds.length + Nat.ofDigits r.base ds.reverse) ::
        r.bytesFrom 0 es := by
  induction ds generalizing high with
  | nil => exact absurd rfl hne
  | cons d ds ih =>
    have hvalue : high * r.base ^ (d :: ds).length + Nat.ofDigits r.base (d :: ds).reverse =
        (high * r.base + d) * r.base ^ ds.length + Nat.ofDigits r.base ds.reverse := by
      rw [List.reverse_cons, Nat.ofDigits_append, List.length_reverse, Nat.ofDigits_singleton,
        List.length_cons, Nat.pow_succ]
      ring
    rw [hvalue, List.cons_append, bytesFrom]
    by_cases hlast : ds = []
    · -- Only whole groups follow the last digit.
      subst hlast
      rw [List.nil_append, if_pos hes]
      simp
    · -- As many digits follow in the byte as are left over by whole groups.
      have hlength := List.length_pos_iff.2 hlast
      rw [List.length_cons] at hds
      have hlt : (ds ++ es).length % r.group = ds.length := by
        rw [List.length_append, Nat.add_mod, hes, Nat.add_zero, Nat.mod_mod,
          Nat.mod_eq_of_lt (by omega)]
      rw [if_neg (by omega), ih hlast (by omega)]

end Radix

/-- There are digits for every number that is not too big. -/
theorem exists_digits_of_lt {b : Nat} (hb : 0 < b) (hle : b ≤ 16) (w : Nat) :
    ∀ n < b ^ w, ∃ ds : List Char, ds.length = w ∧ (∀ d ∈ ds, Radix.value d < b) ∧
      Nat.ofDigits b (ds.map Radix.value).reverse = n := by
  have hdigit : ∀ m < 16, Radix.value (Nat.digitChar m) = m := by decide
  induction w with
  | zero =>
    intro n hn
    obtain rfl := Nat.lt_one_iff.1 hn
    exact ⟨[], rfl, nofun, rfl⟩
  | succ w ih =>
    -- The last digit is the remainder, and those in front are the digits of the quotient.
    intro n hn
    rw [Nat.pow_succ, Nat.mul_comm] at hn
    obtain ⟨ds, hlength, hds, hvalue⟩ := ih (n / b) (Nat.div_lt_of_lt_mul hn)
    have hmod := Nat.mod_lt n hb
    have hlast := hdigit (n % b) (by omega)
    refine ⟨ds ++ [Nat.digitChar (n % b)], ?_, ?_, ?_⟩
    · rw [List.length_append, hlength]
      rfl
    · refine List.forall_mem_append.2 ⟨hds, List.forall_mem_singleton.2 ?_⟩
      rw [hlast]
      exact hmod
    · rw [List.map_append, List.reverse_append, List.map_singleton, List.reverse_singleton,
        List.singleton_append, Nat.ofDigits_cons, hvalue, hlast]
      exact Nat.mod_add_div n b

theorem exists_forall₂ {α β : Type} {R : α → β → Prop} (h : ∀ a, ∃ b, R a b) (as : List α) :
    ∃ bs, List.Forall₂ R as bs := by
  choose f hf using h
  exact ⟨as.map f, List.forall₂_map_right_iff.2 (List.forall₂_same.2 fun a _ => hf a)⟩

/-- A way to write bytes: the letter, the base and the number of the digits of a byte, and the
greatest number of bytes behind a letter. -/
structure ByteForm where
  letter : Char
  base : Nat
  width : Nat
  most : Nat

namespace ByteForm

variable {form : ByteForm} {bytes : List UInt8} {b : UInt8} {ds : List Char}

/-- The ways to write bytes. -/
def all : List ByteForm :=
  [⟨'u', 16, 2, 4⟩, ⟨'x', 16, 2, 4⟩, ⟨'o', 8, 4, 2⟩, ⟨'B', 2, 8, 4⟩]

/-- The digits of a byte. -/
structure Digits (form : ByteForm) (b : UInt8) (ds : List Char) : Prop where
  length_eq : ds.length = form.width
  value_lt : ∀ d ∈ ds, Radix.value d < form.base
  value_eq : Nat.ofDigits form.base (ds.map Radix.value).reverse = b.toNat

instance (form : ByteForm) (b : UInt8) (ds : List Char) : Decidable (form.Digits b ds) :=
  decidable_of_iff (ds.length = form.width ∧ (ds.all (Radix.value · < form.base)) ∧
      Nat.ofDigits form.base (ds.map Radix.value).reverse = b.toNat)
    ⟨fun ⟨hlength, hds, hvalue⟩ => ⟨hlength, by simpa using hds, hvalue⟩,
      fun ⟨hlength, hds, hvalue⟩ => ⟨hlength, by simpa using hds, hvalue⟩⟩

/-- A radix reads what is written in a form. -/
structure ReadBy (form : ByteForm) (r : Radix) : Prop where
  letter : Radix.ofLetter? form.letter = some r
  base : r.base = form.base
  group : r.group = form.width
  limit : ∀ v, form.most * form.width ≤ r.limit v
  width : 0 < form.width

theorem exists_readBy (h : form ∈ all) : ∃ r, form.ReadBy r := by
  simp only [all, List.mem_cons, List.not_mem_nil, or_false] at h
  rcases h with rfl | rfl | rfl | rfl
  · exact ⟨.hexadecimal, rfl, rfl, rfl, fun _ => Nat.le_refl 8, by decide⟩
  · exact ⟨.hexadecimal, rfl, rfl, rfl, fun _ => Nat.le_refl 8, by decide⟩
  · refine ⟨.octal, rfl, rfl, rfl, fun v => ?_, by decide⟩
    show 8 ≤ if v > 3 then 10 else 11
    split <;> decide
  · exact ⟨.binary, rfl, rfl, rfl, fun _ => Nat.le_refl 32, by decide⟩

/-- Every byte can be written in every form. -/
theorem exists_digits (h : form ∈ all) (b : UInt8) : ∃ ds, form.Digits b ds := by
  have hall : ∀ form ∈ all, 0 < form.base ∧ form.base ≤ 16 ∧ 256 ≤ form.base ^ form.width := by
    decide
  obtain ⟨hpos, hle, hwidth⟩ := hall form h
  have hb : b.toNat < form.base ^ form.width := b.toNat_lt.trans_le hwidth
  obtain ⟨ds, hlength, hds, hvalue⟩ := exists_digits_of_lt hpos hle form.width b.toNat hb
  exact ⟨ds, hlength, hds, hvalue⟩

variable {r : Radix} {dss : List (List Char)}

theorem length_flatten (h : List.Forall₂ form.Digits bytes dss) :
    dss.flatten.length = bytes.length * form.width := by
  induction h with
  | nil => exact (Nat.zero_mul _).symm
  | cons hds _ ih =>
    rw [List.flatten_cons, List.length_append, ih, hds.length_eq, List.length_cons, Nat.succ_mul,
      Nat.add_comm]

theorem value_lt_flatten (h : List.Forall₂ form.Digits bytes dss) :
    ∀ d ∈ dss.flatten, Radix.value d < form.base := by
  induction h with
  | nil => exact List.forall_mem_nil _
  | cons hds _ ih => exact List.forall_mem_append.2 ⟨hds.value_lt, ih⟩

/-- The digits of bytes are read as the bytes. -/
theorem ReadBy.bytes_flatten (hr : form.ReadBy r) (h : List.Forall₂ form.Digits bytes dss) :
    r.bytes (dss.flatten.map Radix.value) = bytes := by
  induction h with
  | nil => rfl
  | @cons b ds bytes dss hds hrest ih =>
    have hne : ds.map Radix.value ≠ [] := by
      rw [← List.length_pos_iff, List.length_map, hds.length_eq]
      exact hr.width
    have hgroup : (dss.flatten.map Radix.value).length % r.group = 0 := by
      rw [List.length_map, length_flatten hrest, hr.group, Nat.mul_mod_left]
    have hlength : (ds.map Radix.value).length ≤ r.group := by
      rw [List.length_map, hds.length_eq, hr.group]
    rw [List.flatten_cons, List.map_append, Radix.bytes,
      Radix.bytesFrom_append hne hlength hgroup, hr.base, hds.value_eq, Nat.zero_mul, Nat.zero_add,
      UInt8.ofNat_toNat]
    exact congrArg _ ih

end ByteForm

/-! ### Groups of bytes -/

/-- Bytes that are written behind one letter. -/
structure ByteGroup where
  form : ByteForm
  bytes : List UInt8
  form_mem : form ∈ ByteForm.all
  ne_nil : bytes ≠ []
  length_le : bytes.length ≤ form.most

namespace ByteGroup

open TextLiteral

variable {g : ByteGroup} {gs : List ByteGroup} {e : List Char} {es : List (List Char)}

/-- A backslash, the letter, and the digits of each byte. -/
def IsWritten (g : ByteGroup) (e : List Char) : Prop :=
  ∃ dss, List.Forall₂ g.form.Digits g.bytes dss ∧ e = '\\' :: g.form.letter :: dss.flatten

theorem exists_isWritten (g : ByteGroup) : ∃ e, g.IsWritten e := by
  obtain ⟨dss, hdss⟩ := exists_forall₂ (ByteForm.exists_digits g.form_mem) g.bytes
  exact ⟨_, dss, hdss, rfl⟩

/-- A written group is a unit. -/
theorem IsWritten.spells (h : g.IsWritten e) : Spells e g.bytes := by
  obtain ⟨dss, hdss, rfl⟩ := h
  obtain ⟨r, hr⟩ := ByteForm.exists_readBy g.form_mem
  have hlength := ByteForm.length_flatten hdss
  have hrun : r.IsRun dss.flatten := by
    refine ⟨fun d hd => decide_eq_true ?_, fun d _ => ?_⟩
    · rw [hr.base]
      exact ByteForm.value_lt_flatten hdss d hd
    · rw [hlength]
      exact (Nat.mul_le_mul_right _ g.length_le).trans (hr.limit _)
  rw [← hr.bytes_flatten hdss]
  refine .run hr.letter ?_ hrun
  rw [← List.length_pos_iff, hlength]
  exact Nat.mul_pos (List.length_pos_iff.2 g.ne_nil) hr.width

theorem IsWritten.inside (h : g.IsWritten e) : Inside e := by
  refine h.spells.inside ?_
  obtain ⟨dss, -, rfl⟩ := h
  exact nofun

/-- A group begins with a backslash. -/
theorem stops_flatten (h : List.Forall₂ IsWritten gs es) : Radix.Stops es.flatten := by
  cases h with
  | nil => rfl
  | cons he _ =>
    obtain ⟨dss, -, rfl⟩ := he
    rfl

theorem inside_flatten (h : List.Forall₂ IsWritten gs es) : Inside es.flatten := by
  induction h with
  | nil => exact .nil
  | cons he _ ih => exact he.inside.append ih

/-- The bytes of the groups are put together. -/
theorem unescape_flatten (h : List.Forall₂ IsWritten gs es) :
    unescape es.flatten = gs.flatMap bytes := by
  induction h with
  | nil => rw [List.flatten_nil, unescape, List.flatMap_nil]
  | cons he hes ih =>
    rw [List.flatten_cons, he.spells.unescape_append (stops_flatten hes), ih, List.flatMap_cons]

end ByteGroup

open TextLiteral

/-- **Any text can be written with escapes for bytes.**  However the bytes of a text are cut
into groups, there are escapes for the groups, and a string that is made of such escapes is the
text. -/
theorem tokenize_byteEscapes {s : String} {gs : List ByteGroup}
    (hcut : gs.flatMap ByteGroup.bytes = s.toUTF8.data.toList) :
    (∃ es, List.Forall₂ ByteGroup.IsWritten gs es) ∧
      ∀ es, List.Forall₂ ByteGroup.IsWritten gs es →
        tokenize (String.ofList (marked '"' es.flatten)) =
          [⟨.string, s, .start⟩, .endAt (.counted (marked '"' es.flatten))] := by
  refine ⟨exists_forall₂ ByteGroup.exists_isWritten gs, fun es hes => ?_⟩
  have htext : String.ofList (textOf (unescape es.flatten)) = s := by
    rw [ByteGroup.unescape_flatten hes, hcut, ← Utf8.encode_toList, textOf_encode,
      String.ofList_toList]
  have hstring := tokenize_string (ByteGroup.inside_flatten hes)
  rwa [htext] at hstring

/-- The character é, cut between its bytes, is `\xC3\B10101001`. -/
theorem tokenize_byteEscapes_accented :
    ∃ gs : List ByteGroup, gs.flatMap ByteGroup.bytes = "é".toUTF8.data.toList ∧
      tokenize "\"\\xC3\\B10101001\"" = [⟨.string, "é", ⟨1, 1⟩⟩, .endAt ⟨1, 17⟩] := by
  let first : ByteGroup := ⟨⟨'x', 16, 2, 4⟩, [0xC3], by simp [ByteForm.all], by simp, by simp⟩
  let second : ByteGroup := ⟨⟨'B', 2, 8, 4⟩, [0xA9], by simp [ByteForm.all], by simp, by simp⟩
  have hcut : [first, second].flatMap ByteGroup.bytes = "é".toUTF8.data.toList := by
    decide +kernel
  have hfirst : first.IsWritten ['\\', 'x', 'C', '3'] :=
    ⟨[['C', '3']], .cons (by decide +kernel) .nil, rfl⟩
  have hsecond : second.IsWritten ['\\', 'B', '1', '0', '1', '0', '1', '0', '0', '1'] :=
    ⟨[['1', '0', '1', '0', '1', '0', '0', '1']], .cons (by decide +kernel) .nil, rfl⟩
  have htokens := (tokenize_byteEscapes hcut).2 _ (.cons hfirst (.cons hsecond .nil))
  exact ⟨_, hcut, htokens⟩

end ScriptSyntax

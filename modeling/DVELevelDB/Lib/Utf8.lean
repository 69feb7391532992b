import Mathlib.Data.List.Basic
import Mathlib.Data.List.Lex
import Mathlib.Order.Basic

/-! # UTF-8 texts as byte strings

Which byte strings are encodings, and that encodings are ordered as the scalars they encode.
-/

namespace Utf8

def encode (text : List Char) : List UInt8 := text.flatMap String.utf8EncodeChar

def Encoded (bytes : List UInt8) : Prop := ∃ text, bytes = encode text

@[simp] theorem encode_nil : encode [] = [] := rfl

theorem encode_cons (c : Char) (text : List Char) :
    encode (c :: text) = String.utf8EncodeChar c ++ encode text := rfl

theorem encode_append (a b : List Char) : encode (a ++ b) = encode a ++ encode b :=
  List.flatMap_append

theorem toUTF8_eq (s : String) : s.toUTF8.data.toList = encode s.toList := by
  have h : s.toUTF8 = s.toList.utf8Encode := by
    rw [String.toUTF8_eq_toByteArray, ← String.utf8Encode_toList]
  rw [h, encode, List.utf8Encode, List.toList_data_toByteArray]

section Ascii

/-- Bytes of ASCII characters other than the zero that ends a C string. -/
def Ascii (bytes : List UInt8) : Prop := ∀ b ∈ bytes, b ≠ 0 ∧ b.toNat ≤ 0x7f

instance (bytes : List UInt8) : Decidable (Ascii bytes) :=
  inferInstanceAs (Decidable (∀ b ∈ bytes, b ≠ 0 ∧ b.toNat ≤ 0x7f))

theorem Ascii.append {a b : List UInt8} (ha : Ascii a) (hb : Ascii b) : Ascii (a ++ b) :=
  List.forall_mem_append.mpr ⟨ha, hb⟩

theorem Ascii.take {bytes : List UInt8} (h : Ascii bytes) (n : ℕ) : Ascii (bytes.take n) :=
  fun b hb => h b (List.mem_of_mem_take hb)

theorem Ascii.flatMap {α : Type} {l : List α} {f : α → List UInt8} (h : ∀ a ∈ l, Ascii (f a)) :
    Ascii (l.flatMap f) := by
  intro b hb
  obtain ⟨a, ha, hb⟩ := List.mem_flatMap.mp hb
  exact h a ha b hb

theorem utf8EncodeChar_of_ascii {c : Char} (h : c.toNat ≤ 0x7f) :
    String.utf8EncodeChar c = [UInt8.ofNat c.toNat] := by
  have hval : c.val.toNat ≤ 0x7f := h
  simp only [String.utf8EncodeChar, if_pos hval]
  rfl

/-- ASCII characters are their own bytes. -/
theorem encode_of_ascii {text : List Char} (h : ∀ c ∈ text, c.toNat ≤ 0x7f) :
    encode text = text.map fun c => UInt8.ofNat c.toNat := by
  induction text with
  | nil => rfl
  | cons c text ih =>
    rw [encode_cons, utf8EncodeChar_of_ascii (h c List.mem_cons_self),
      ih fun d hd => h d (List.mem_cons_of_mem _ hd)]
    rfl

theorem Ascii.encoded {bytes : List UInt8} (h : Ascii bytes) : Encoded bytes := by
  induction bytes with
  | nil => exact ⟨[], rfl⟩
  | cons b bytes ih =>
    obtain ⟨text, rfl⟩ := ih fun b' h' => h b' (List.mem_cons_of_mem _ h')
    have hb := (h b List.mem_cons_self).2
    have hchar : (Char.ofNat b.toNat).toNat = b.toNat := by
      rw [Char.ofNat, dif_pos (Or.inl (by omega))]
      rfl
    refine ⟨Char.ofNat b.toNat :: text, ?_⟩
    rw [encode_cons, utf8EncodeChar_of_ascii (by rw [hchar]; exact hb), hchar, UInt8.ofNat_toNat]
    rfl

end Ascii

section Validity

variable {bytes : List UInt8}

theorem isValidUTF8_iff : (ByteArray.mk bytes.toArray).IsValidUTF8 ↔ Encoded bytes := by
  constructor
  · rintro ⟨text, h⟩
    refine ⟨text, ?_⟩
    have := congrArg (fun b : ByteArray => b.data.toList) h
    simpa [List.utf8Encode, encode] using this
  · rintro ⟨text, rfl⟩
    refine ⟨text, ?_⟩
    apply ByteArray.ext
    simp [List.utf8Encode, encode]

theorem validateUTF8_iff : (ByteArray.mk bytes.toArray).validateUTF8 = true ↔ Encoded bytes :=
  ByteArray.validateUTF8_eq_true_iff.trans isValidUTF8_iff

instance : Decidable (Encoded bytes) := decidable_of_iff _ validateUTF8_iff

/-- After a complete text the rest decides. -/
theorem encoded_append_iff (text : List Char) :
    Encoded (encode text ++ bytes) ↔ Encoded bytes := by
  constructor
  · intro h
    induction text with
    | nil => exact h
    | cons c text ih =>
      apply ih
      rw [← isValidUTF8_iff]
      rw [encode_cons, List.append_assoc, ← isValidUTF8_iff] at h
      apply ByteArray.isValidUTF8_utf8Encode_singleton_append_iff (c := c) |>.mp
      convert h using 1
      apply ByteArray.ext
      simp [List.utf8Encode]
  · rintro ⟨rest, rfl⟩
    exact ⟨text ++ rest, (encode_append _ _).symm⟩

end Validity

section Order

/-- Two lists that differ at a place where the first is smaller. -/
def Diverges (x y : List ℕ) : Prop := ∃ p m n s t, x = p ++ m :: s ∧ y = p ++ n :: t ∧ m < n

theorem append_lt_append_iff (p x y : List ℕ) : p ++ x < p ++ y ↔ x < y := by
  induction p with
  | nil => rfl
  | cons m p ih => simpa using ih

theorem Diverges.append_lt {x y : List ℕ} (h : Diverges x y) (u v : List ℕ) :
    x ++ u < y ++ v := by
  obtain ⟨p, m, n, s, t, rfl, rfl, hlt⟩ := h
  rw [List.append_assoc, List.append_assoc, append_lt_append_iff]
  exact List.cons_lt_cons_iff.mpr (Or.inl hlt)

def scalars (text : List Char) : List ℕ := text.map Char.toNat

def octets (bytes : List UInt8) : List ℕ := bytes.map UInt8.toNat

/-- The encoding of one scalar as numbers. -/
def scalarBytes (v : ℕ) : List ℕ :=
  if v ≤ 0x7f then [v]
  else if v ≤ 0x7ff then [v / 64 + 192, v % 64 + 128]
  else if v ≤ 0xffff then [v / 4096 + 224, v / 64 % 64 + 128, v % 64 + 128]
  else [v / 262144 + 240, v / 4096 % 64 + 128, v / 64 % 64 + 128, v % 64 + 128]

theorem toNat_le (c : Char) : c.toNat ≤ 0x10ffff := by
  have := c.valid
  simp only [UInt32.isValidChar, Nat.isValidChar] at this
  change c.val.toNat ≤ _
  omega

theorem octets_utf8EncodeChar (c : Char) :
    octets (String.utf8EncodeChar c) = scalarBytes c.toNat := by
  have hle := toNat_le c
  change c.val.toNat ≤ _ at hle
  change octets (String.utf8EncodeChar c) = scalarBytes c.val.toNat
  unfold String.utf8EncodeChar scalarBytes octets
  dsimp only
  split_ifs with h1 h2 h3
  all_goals simp only [List.map_cons, List.map_nil, UInt8.toNat_ofNat', List.cons.injEq, and_true]
  all_goals omega

theorem diverges_head {m n : ℕ} {s t : List ℕ} (h : m < n) : Diverges (m :: s) (n :: t) :=
  ⟨[], m, n, s, t, rfl, rfl, h⟩

theorem Diverges.cons {x y : List ℕ} (h : Diverges x y) (m : ℕ) : Diverges (m :: x) (m :: y) := by
  obtain ⟨p, a, b, s, t, rfl, rfl, hlt⟩ := h
  exact ⟨m :: p, a, b, s, t, rfl, rfl, hlt⟩

theorem diverges_digit {a b : ℕ} {s t : List ℕ} (hle : a ≤ b) (h : a = b → Diverges s t) :
    Diverges (a :: s) (b :: t) := by
  rcases Nat.lt_or_eq_of_le hle with hlt | rfl
  · exact diverges_head hlt
  · exact (h rfl).cons a

/-- Lead bytes tell the lengths apart; encodings of one length are read like digits. -/
theorem scalarBytes_diverges {v w : ℕ} (h : v < w) : Diverges (scalarBytes v) (scalarBytes w) := by
  unfold scalarBytes
  split_ifs with h1 h2 h3 h4 h5 h6
  all_goals first
    | exact diverges_head (by omega)
    | omega
    | skip
  · apply diverges_digit (by omega)
    intro h1
    exact diverges_head (by omega)
  · apply diverges_digit (by omega)
    intro h1
    apply diverges_digit (by omega)
    intro h2
    exact diverges_head (by omega)
  · apply diverges_digit (by omega)
    intro h1
    apply diverges_digit (by omega)
    intro h2
    apply diverges_digit (by omega)
    intro h3
    exact diverges_head (by omega)

theorem octets_append (a b : List UInt8) : octets (a ++ b) = octets a ++ octets b :=
  List.map_append

theorem octets_encode_cons (c : Char) (text : List Char) :
    octets (encode (c :: text)) = scalarBytes c.toNat ++ octets (encode text) := by
  rw [encode_cons, octets_append, octets_utf8EncodeChar]

theorem scalarBytes_ne_nil (v : ℕ) : scalarBytes v ≠ [] := by
  unfold scalarBytes
  split_ifs <;> simp

/-- Bytes of encodings are ordered as the scalars of the texts. -/
theorem encode_lt_of_scalars_lt {a b : List Char} (h : scalars a < scalars b) :
    octets (encode a) < octets (encode b) := by
  induction a generalizing b with
  | nil =>
    cases b with
    | nil => exact absurd h (lt_irrefl _)
    | cons d b =>
      rw [octets_encode_cons]
      cases hs : scalarBytes d.toNat with
      | nil => exact absurd hs (scalarBytes_ne_nil _)
      | cons m s => exact List.nil_lt_cons _ _
  | cons c a ih =>
    cases b with
    | nil => exact absurd h (List.not_lt_nil _)
    | cons d b =>
      rw [octets_encode_cons, octets_encode_cons]
      rcases List.cons_lt_cons_iff.mp h with hlt | ⟨heq, hlt⟩
      · exact (scalarBytes_diverges hlt).append_lt _ _
      · rw [heq, append_lt_append_iff]
        exact ih hlt

theorem scalars_injective : Function.Injective scalars := by
  apply List.map_injective_iff.mpr
  intro c d h
  exact Char.toNat_inj.mp h

theorem encode_lt_iff {a b : List Char} :
    octets (encode a) < octets (encode b) ↔ scalars a < scalars b := by
  constructor
  · intro h
    rcases lt_trichotomy (scalars a) (scalars b) with hlt | heq | hgt
    · exact hlt
    · rw [scalars_injective heq] at h
      exact absurd h (lt_irrefl _)
    · exact absurd (encode_lt_of_scalars_lt hgt) (lt_asymm h)
  · exact encode_lt_of_scalars_lt

theorem encode_injective : Function.Injective encode := by
  intro a b h
  have hbytes : ∀ {x y : List Char}, encode x = encode y → ¬ scalars x < scalars y := by
    intro x y hxy hlt
    have := encode_lt_of_scalars_lt hlt
    rw [hxy] at this
    exact lt_irrefl _ this
  rcases lt_trichotomy (scalars a) (scalars b) with hlt | heq | hgt
  · exact absurd hlt (hbytes h)
  · exact scalars_injective heq
  · exact absurd hgt (hbytes h.symm)

end Order

end Utf8

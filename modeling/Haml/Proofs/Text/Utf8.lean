import Haml.Text.Utf8

/-!
What is written as UTF-8 reads as the text that was written, and it is what the standard library
takes for the UTF-8 of the text.
-/
namespace Haml.Text.Utf8

theorem toNat_byte {n : Nat} (h : n < 256) : (UInt8.ofNat n).toNat = n := by
  rw [UInt8.toNat_ofNat', Nat.mod_eq_of_lt h]

/-! ## Pieces -/

/-- The code of a surrogate that is cut off has one byte after the first. -/
theorem piece_eq {b : UInt8} {rest : List UInt8} {n lo hi bits : Nat}
    (hlead : lead? b.toNat = some (n, lo, hi, bits)) (h : b.toNat = 0xED → 2 ≤ rest.length) :
    piece b rest = continue? n lo hi bits 1 rest := by
  unfold piece
  rw [hlead]
  dsimp only
  split
  · next c =>
    have hb : b ≠ 0xED := by
      rintro rfl
      exact absurd (h rfl) (by simp)
    simp [startsSurrogate, hb]
  · rfl

/-- One more byte of a character gives six bits. -/
theorem continue?_cons {n lo hi code seen v : Nat} (hv : v < 64) (hlo : lo ≤ v + 128)
    (hhi : v + 128 ≤ hi) (rest : List UInt8) :
    continue? (n + 1) lo hi code seen (UInt8.ofNat (v + 128) :: rest) =
      continue? n 0x80 0xBF (code * 64 + v) (seen + 1) rest := by
  rw [continue?, toNat_byte (by omega), if_pos ⟨hlo, hhi⟩, Nat.add_sub_cancel]

section

variable {v : Nat} (rest : List UInt8)

theorem piece_one (h : v ≤ 127) : piece (UInt8.ofNat v) rest = .char (Char.ofNat v) := by
  have hb := toNat_byte (show v < 256 by omega)
  have hlead : lead? (UInt8.ofNat v).toNat = some (0, 0, 0, v) := by
    rw [hb, lead?, if_pos (by omega)]
  rw [piece_eq hlead (by omega), continue?]

theorem piece_two (hlow : 127 < v) (hhigh : v ≤ 2047) :
    piece (UInt8.ofNat (v / 64 % 32 + 192)) (UInt8.ofNat (v % 64 + 128) :: rest) =
      .char (Char.ofNat v) := by
  have hb := toNat_byte (show v / 64 % 32 + 192 < 256 by omega)
  have hlead : lead? (UInt8.ofNat (v / 64 % 32 + 192)).toNat = some (1, 0x80, 0xBF, v / 64) := by
    rw [hb, lead?, if_neg (by omega), if_neg (by omega), if_pos (by omega),
      show v / 64 % 32 + 192 - 0xC0 = v / 64 by omega]
  have hcode : v / 64 * 64 + v % 64 = v := by omega
  rw [piece_eq hlead (by omega), continue?_cons (by omega) (by omega) (by omega), continue?, hcode]

/-- The first of three bytes, which narrows the second one where fewer bytes would do or where the
surrogates are. -/
theorem lead?_three (hlow : 2047 < v) (hhigh : v ≤ 65535) (hvalid : v < 0xD800 ∨ 0xDFFF < v) :
    ∃ lo hi, lead? (v / 4096 % 16 + 224) = some (2, lo, hi, v / 4096) ∧
      lo ≤ v / 64 % 64 + 128 ∧ v / 64 % 64 + 128 ≤ hi := by
  rw [lead?, if_neg (by omega), if_neg (by omega), if_neg (by omega)]
  split
  · exact ⟨0xA0, 0xBF, by simp; omega, by omega, by omega⟩
  · split
    · exact ⟨0x80, 0x9F, by simp; omega, by omega, by omega⟩
    · rw [if_pos (by omega)]
      exact ⟨0x80, 0xBF, by simp; omega, by omega, by omega⟩

theorem piece_three (hlow : 2047 < v) (hhigh : v ≤ 65535) (hvalid : v < 0xD800 ∨ 0xDFFF < v) :
    piece (UInt8.ofNat (v / 4096 % 16 + 224))
        (UInt8.ofNat (v / 64 % 64 + 128) :: UInt8.ofNat (v % 64 + 128) :: rest) =
      .char (Char.ofNat v) := by
  obtain ⟨lo, hi, hlead, hlo, hhi⟩ := lead?_three hlow hhigh hvalid
  rw [← toNat_byte (show v / 4096 % 16 + 224 < 256 by omega)] at hlead
  have hcode : (v / 4096 * 64 + v / 64 % 64) * 64 + v % 64 = v := by omega
  rw [piece_eq hlead (by simp), continue?_cons (by omega) hlo hhi,
    continue?_cons (by omega) (by omega) (by omega), continue?, hcode]

/-- The first of four bytes, which narrows the second one where fewer bytes would do or where there
are no more characters. -/
theorem lead?_four (hlow : 65535 < v) (hhigh : v < 0x110000) :
    ∃ lo hi, lead? (v / 262144 % 8 + 240) = some (3, lo, hi, v / 262144) ∧
      lo ≤ v / 4096 % 64 + 128 ∧ v / 4096 % 64 + 128 ≤ hi := by
  rw [lead?, if_neg (by omega), if_neg (by omega), if_neg (by omega), if_neg (by omega),
    if_neg (by omega), if_neg (by omega)]
  split
  · exact ⟨0x90, 0xBF, by simp; omega, by omega, by omega⟩
  · split
    · exact ⟨0x80, 0xBF, by simp; omega, by omega, by omega⟩
    · rw [if_pos (by omega)]
      exact ⟨0x80, 0x8F, by simp; omega, by omega, by omega⟩

theorem piece_four (hlow : 65535 < v) (hhigh : v < 0x110000) :
    piece (UInt8.ofNat (v / 262144 % 8 + 240))
        (UInt8.ofNat (v / 4096 % 64 + 128) :: UInt8.ofNat (v / 64 % 64 + 128) ::
          UInt8.ofNat (v % 64 + 128) :: rest) =
      .char (Char.ofNat v) := by
  obtain ⟨lo, hi, hlead, hlo, hhi⟩ := lead?_four hlow hhigh
  rw [← toNat_byte (show v / 262144 % 8 + 240 < 256 by omega)] at hlead
  have hcode : ((v / 262144 * 64 + v / 4096 % 64) * 64 + v / 64 % 64) * 64 + v % 64 = v := by omega
  rw [piece_eq hlead (by simp), continue?_cons (by omega) hlo hhi,
    continue?_cons (by omega) (by omega) (by omega),
    continue?_cons (by omega) (by omega) (by omega), continue?, hcode]

end

/-- The bytes of a character are read as that character, whatever follows. -/
theorem piece_encodeChar (c : Char) (rest : List UInt8) :
    ∃ b bs, String.utf8EncodeChar c = b :: bs ∧ piece b (bs ++ rest) = .char c := by
  have hc : Char.ofNat c.val.toNat = c := Char.ofNat_toNat c
  have hvalid : c.val.toNat < 0xD800 ∨ 0xDFFF < c.val.toNat ∧ c.val.toNat < 0x110000 := c.valid
  unfold String.utf8EncodeChar
  dsimp only
  split
  · next h =>
    exact ⟨_, _, rfl, (piece_one rest h).trans (congrArg _ hc)⟩
  · split
    · next h =>
      exact ⟨_, _, rfl, (piece_two rest (by omega) h).trans (congrArg _ hc)⟩
    · split
      · next h =>
        exact ⟨_, _, rfl, (piece_three rest (by omega) h (by omega)).trans (congrArg _ hc)⟩
      · exact ⟨_, _, rfl, (piece_four rest (by omega) (by omega)).trans (congrArg _ hc)⟩

/-! ## Texts -/

theorem pieces_encodeChar (position : Nat) (c : Char) (rest : List UInt8) :
    pieces position (String.utf8EncodeChar c ++ rest) =
      (position, .char c, String.utf8EncodeChar c) :: pieces (position + c.utf8Size) rest := by
  obtain ⟨b, bs, hbytes, hpiece⟩ := piece_encodeChar c rest
  have hsize : c.utf8Size = bs.length + 1 := by
    rw [← String.length_utf8EncodeChar, hbytes, List.length_cons]
  have hextra : (Piece.char c).extra = bs.length := by
    rw [Piece.extra, hsize, Nat.add_sub_cancel]
  rw [hbytes, List.cons_append, pieces]
  simp only [hpiece, hextra, List.take_left, List.drop_left, hsize]
  rw [Nat.add_assoc, Nat.add_comm 1]

theorem mapM_pieces_encode (position : Nat) (t : Text) :
    (pieces position (encode t)).mapM (fun x => x.2.1.text x.1 x.2.2) =
      .ok (t.map ([·])) := by
  induction t generalizing position with
  | nil =>
    rw [encode, List.flatMap_nil, pieces]
    rfl
  | cons c t ih =>
    rw [encode, List.flatMap_cons, pieces_encodeChar, List.mapM_cons, ← encode, ih]
    rfl

/-- What is written reads as the text that was written. -/
theorem decode_encode (t : Text) : decode (encode t) = .ok t := by
  have hflat : (t.map ([·])).flatten = t := by rw [← List.flatMap_def, List.flatMap_singleton']
  rw [decode, mapM_pieces_encode]
  exact congrArg Except.ok hflat

/-- What is written is what the standard library takes for the UTF-8 of a text. -/
theorem toByteArray_encode (t : Text) : (encode t).toByteArray = (String.ofList t).toUTF8 := by
  rw [String.toUTF8_eq_toByteArray, String.toByteArray_ofList]
  rfl

theorem eq_encode {bytes : List UInt8} {t : Text}
    (h : bytes.toByteArray = (String.ofList t).toUTF8) : bytes = encode t :=
  List.toByteArray_inj.mp (h.trans (toByteArray_encode t).symm)

end Haml.Text.Utf8

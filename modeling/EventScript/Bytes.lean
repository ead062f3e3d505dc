import EventScript.Text.Numeral

/-!
# Bytes and byte order

Byte strings are lists of bytes. `LittleEndian.encode` writes a number as a given count of bytes,
least significant first, and `LittleEndian.decode` reads such bytes back; `BigEndian.decode` reads
bytes in the other order. `decode_encode` and `encode_decode` say that the little-endian pair is
inverse.
-/

namespace EventScript

/-- A byte string. -/
abbrev Bytes := List UInt8

namespace LittleEndian

/-- The `count` lowest bytes of a number, least significant first. -/
def encode : Nat → Nat → Bytes
  | 0, _ => []
  | count + 1, value => UInt8.ofNat value :: encode count (value / 256)

/-- The number with these bytes, least significant first. -/
def decode : Bytes → Nat
  | [] => 0
  | byte :: rest => byte.toNat + 256 * decode rest

/-- How many numbers can be written as `count` bytes. -/
def limit : Nat → Nat
  | 0 => 1
  | count + 1 => 256 * limit count

@[simp] theorem length_encode (count value : Nat) : (encode count value).length = count := by
  induction count generalizing value with
  | zero => rfl
  | succ count ih => simp [encode, ih]

/-- Bytes of a number that fits into them read back as that number. -/
theorem decode_encode (count value : Nat) (h : value < limit count) :
    decode (encode count value) = value := by
  induction count generalizing value with
  | zero =>
      rw [limit, Nat.lt_one_iff] at h
      simp [encode, decode, h]
  | succ count ih =>
      have hrest : value / 256 < limit count := by
        rw [limit] at h
        omega
      simp only [encode, decode, UInt8.toNat_ofNat', ih _ hrest]
      omega

/-- A byte string is the encoding of the number it stands for. -/
theorem encode_decode (bytes : Bytes) : encode bytes.length (decode bytes) = bytes := by
  induction bytes with
  | nil => rfl
  | cons byte rest ih =>
      have hbyte := byte.toNat_lt
      have hrest : (byte.toNat + 256 * decode rest) / 256 = decode rest := by omega
      simp only [List.length_cons, decode, encode, hrest, ih, List.cons.injEq, and_true]
      apply UInt8.toNat_inj.mp
      simp only [UInt8.toNat_ofNat']
      omega

/-- Bytes stand for one of the numbers that can be written as so many. -/
theorem decode_lt (bytes : Bytes) : decode bytes < limit bytes.length := by
  induction bytes with
  | nil => simp [decode, limit]
  | cons byte rest ih =>
      have hbyte := byte.toNat_lt
      simp only [decode, List.length_cons, limit]
      omega

/-- The number that at most four bytes stand for is a word. -/
theorem toNat_ofNat_decode {bytes : Bytes} (h : bytes.length ≤ 4) :
    (UInt32.ofNat (decode bytes)).toNat = decode bytes := by
  have hlt := decode_lt bytes
  have hword : limit bytes.length ≤ UInt32.size := by
    match bytes.length, h with
    | 0, _ | 1, _ | 2, _ | 3, _ | 4, _ => decide
  rw [UInt32.toNat_ofNat']
  exact Nat.mod_eq_of_lt (Nat.lt_of_lt_of_le hlt hword)

/-- At most four bytes are the encoding of the word they stand for. -/
theorem encode_ofNat_decode {bytes : Bytes} (h : bytes.length ≤ 4) :
    encode bytes.length (UInt32.ofNat (decode bytes)).toNat = bytes := by
  rw [toNat_ofNat_decode h, encode_decode]

end LittleEndian

/-- The number with these bytes, most significant first. -/
def BigEndian.decode (bytes : Bytes) : Nat :=
  bytes.foldl (fun high byte => 256 * high + byte.toNat) 0

/-- The two hexadecimal digits of a byte. -/
def Bytes.hexByte (byte : UInt8) : String :=
  String.ofList (Text.Numeral.hexDigitsPadded 2 byte.toNat)

end EventScript

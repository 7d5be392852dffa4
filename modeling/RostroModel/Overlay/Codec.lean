import RostroModel.Library.LittleEndian

-- The codec of `Compact<u32>` belongs to the SCALE codec crate, which is not part of this
-- repository. The overlay relies on the following about it: the announced length of an encoding is
-- its real one, a decoder reads back what was encoded whatever follows it, and a number has no
-- encoding but the canonical one.
structure CompactCodec where
  encode : UInt32 → Bytes
  compactLen : UInt32 → Nat
  decode : Bytes → Option UInt32
  encode_length : ∀ n, (encode n).length = compactLen n
  decode_encode : ∀ n rest, decode (encode n ++ rest) = some n
  canonical : ∀ {bs n}, decode bs = some n → ∃ rest, bs = encode n ++ rest

namespace CompactCodec

open LittleEndian

-- The four modes of a compact number: one, two or four bytes with the mode in the two lowest bits,
-- or a mode byte that is followed by the plain number.
def scaleEncode (n : UInt32) : Bytes :=
  if n.toNat < 2 ^ 6 then bytes 1 (4 * n.toNat)
  else if n.toNat < 2 ^ 14 then bytes 2 (4 * n.toNat + 1)
  else if n.toNat < 2 ^ 30 then bytes 4 (4 * n.toNat + 2)
  else 3 :: bytes 4 n.toNat

def scaleCompactLen (n : UInt32) : Nat :=
  if n.toNat < 2 ^ 6 then 1
  else if n.toNat < 2 ^ 14 then 2
  else if n.toNat < 2 ^ 30 then 4
  else 5

def ranged (lo hi n : Nat) : Option UInt32 :=
  if lo ≤ n ∧ n < hi then some (UInt32.ofNat n) else none

def fixed (width : Nat) (bs : Bytes) : Option Nat :=
  if width ≤ bs.length then some (value (bs.take width)) else none

def scaleDecode (bs : Bytes) : Option UInt32 :=
  match bs with
  | [] => none
  | b :: rest =>
    match b.toNat % 4 with
    | 0 => ranged 0 (2 ^ 6) (b.toNat / 4)
    | 1 => fixed 2 bs >>= fun x => ranged (2 ^ 6) (2 ^ 14) (x / 4)
    | 2 => fixed 4 bs >>= fun x => ranged (2 ^ 14) (2 ^ 30) (x / 4)
    | _ => if b.toNat / 4 = 0 then fixed 4 rest >>= ranged (2 ^ 30) (2 ^ 32) else none

theorem ranged_eq_some (hb : hi ≤ 2 ^ 32) (h : ranged lo hi n = some m) :
    m.toNat = n ∧ lo ≤ n ∧ n < hi := by
  simp only [ranged, Option.ite_none_right_eq_some, Option.some.injEq] at h
  obtain ⟨h, rfl⟩ := h
  simp only [UInt32.toNat_ofNat']
  omega

theorem ranged_of_mem {m : UInt32} (hl : lo ≤ m.toNat) (hh : m.toNat < hi) :
    ranged lo hi m.toNat = some m := by
  simp [ranged, hl, hh]

theorem fixed_bytes (h : n < 256 ^ width) (rest : Bytes) :
    fixed width (bytes width n ++ rest) = some n := by
  simp [fixed, value_bytes h]

theorem fixed_eq_some (h : fixed width bs = some n) : ∃ rest, bs = bytes width n ++ rest := by
  simp only [fixed, Option.ite_none_right_eq_some, Option.some.injEq] at h
  obtain ⟨hl, rfl⟩ := h
  refine ⟨bs.drop width, ?_⟩
  have hb := bytes_value (bs.take width)
  rw [List.length_take, Nat.min_eq_left hl] at hb
  rw [hb, List.take_append_drop]

theorem value_cons_mod (b : UInt8) (bs : Bytes) : value (b :: bs) % 4 = b.toNat % 4 := by
  simp only [value]
  omega

theorem fixed_cons_mod (hw : 0 < width) (h : fixed width (b :: bs) = some n) :
    n % 4 = b.toNat % 4 := by
  obtain ⟨w, rfl⟩ := Nat.exists_eq_add_one.mpr hw
  simp only [fixed, Option.ite_none_right_eq_some, Option.some.injEq, List.take_succ_cons] at h
  rw [← h.2, value_cons_mod]

theorem scaleEncode_length (n : UInt32) : (scaleEncode n).length = scaleCompactLen n := by
  unfold scaleEncode scaleCompactLen
  split_ifs <;> simp

theorem bytes_succ_append (width n : Nat) (rest : Bytes) :
    bytes (width + 1) n ++ rest = UInt8.ofNat (n % 256) :: (bytes width (n / 256) ++ rest) :=
  rfl

theorem scaleDecode_scaleEncode (n : UInt32) (rest : Bytes) :
    scaleDecode (scaleEncode n ++ rest) = some n := by
  have hn := n.toNat_lt
  unfold scaleEncode
  split_ifs with h1 h2 h3
  · have hm : 4 * n.toNat % 256 = 4 * n.toNat := by omega
    have hr : 4 * n.toNat % 4 = 0 := by omega
    simp only [bytes_succ_append, scaleDecode, UInt8.toNat_ofNat', hm]
    simp only [hr]
    rw [Nat.mul_div_cancel_left _ (by omega)]
    exact ranged_of_mem (by omega) h1
  · have hr : (4 * n.toNat + 1) % 256 % 2 ^ 8 % 4 = 1 := by omega
    have hf := fixed_bytes (show 4 * n.toNat + 1 < 256 ^ 2 by omega) rest
    rw [bytes_succ_append] at hf ⊢
    simp only [scaleDecode, UInt8.toNat_ofNat', hr, hf, Option.bind_eq_bind, Option.bind_some]
    rw [show (4 * n.toNat + 1) / 4 = n.toNat by omega]
    exact ranged_of_mem (by omega) h2
  · have hr : (4 * n.toNat + 2) % 256 % 2 ^ 8 % 4 = 2 := by omega
    have hf := fixed_bytes (show 4 * n.toNat + 2 < 256 ^ 4 by omega) rest
    rw [bytes_succ_append] at hf ⊢
    simp only [scaleDecode, UInt8.toNat_ofNat', hr, hf, Option.bind_eq_bind, Option.bind_some]
    rw [show (4 * n.toNat + 2) / 4 = n.toNat by omega]
    exact ranged_of_mem (by omega) h3
  · have hf := fixed_bytes (show n.toNat < 256 ^ 4 by omega) rest
    simp only [scaleDecode, List.cons_append, hf]
    exact ranged_of_mem (by omega) hn

theorem scaleEncode_of_lt {n : UInt32} (h : n.toNat < 2 ^ 6) :
    scaleEncode n = bytes 1 (4 * n.toNat) :=
  if_pos h

theorem scale_canonical (h : scaleDecode bs = some n) : ∃ rest, bs = scaleEncode n ++ rest := by
  cases bs
  case nil => simp [scaleDecode] at h
  case cons b rest =>
    simp only [scaleDecode] at h
    split at h
    · have ⟨hn, _, _⟩ := ranged_eq_some (by decide) h
      refine ⟨rest, ?_⟩
      rw [scaleEncode_of_lt (by omega), hn, bytes_succ_append]
      rw [show 4 * (b.toNat / 4) % 256 = b.toNat by omega, UInt8.ofNat_toNat]
      rfl
    · obtain ⟨x, hx, h⟩ := Option.bind_eq_some_iff.mp h
      have ⟨hn, _, _⟩ := ranged_eq_some (by decide) h
      have hm := fixed_cons_mod (by omega) hx
      have ⟨rest', hr⟩ := fixed_eq_some hx
      refine ⟨rest', ?_⟩
      rw [hr, scaleEncode, if_neg (by omega), if_pos (by omega), hn]
      rw [show 4 * (x / 4) + 1 = x by omega]
    · obtain ⟨x, hx, h⟩ := Option.bind_eq_some_iff.mp h
      have ⟨hn, _, _⟩ := ranged_eq_some (by decide) h
      have hm := fixed_cons_mod (by omega) hx
      have ⟨rest', hr⟩ := fixed_eq_some hx
      refine ⟨rest', ?_⟩
      rw [hr, scaleEncode, if_neg (by omega), if_neg (by omega), if_pos (by omega), hn]
      rw [show 4 * (x / 4) + 2 = x by omega]
    case _ h0 h1 h2 =>
      simp only [Option.ite_none_right_eq_some] at h
      obtain ⟨hz, h⟩ := h
      obtain ⟨x, hx, h⟩ := Option.bind_eq_some_iff.mp h
      have ⟨hn, _, _⟩ := ranged_eq_some (by decide) h
      have ⟨rest', hr⟩ := fixed_eq_some hx
      have hb' : b = 3 := by
        apply UInt8.toNat_inj.mp
        simp only [UInt8.reduceToNat]
        have : b.toNat % 4 ≠ 0 ∧ b.toNat % 4 ≠ 1 ∧ b.toNat % 4 ≠ 2 := ⟨h0, h1, h2⟩
        omega
      refine ⟨rest', ?_⟩
      rw [hr, hb', scaleEncode, if_neg (by omega), if_neg (by omega), if_neg (by omega), hn]
      rfl

-- The encoding that the SCALE specification prescribes has the properties asked for above.
def scale : CompactCodec where
  encode := scaleEncode
  compactLen := scaleCompactLen
  decode := scaleDecode
  encode_length := scaleEncode_length
  decode_encode := scaleDecode_scaleEncode
  canonical := scale_canonical

example : scale.encode 1 = [4] := by decide
example : scale.decode [4, 7] = some 1 := by decide

end CompactCodec

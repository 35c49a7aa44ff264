import EloqStore.Page.DataPageBuilder

/-!
# Varints as they are written and read

`EncodeVarint32` is unrolled by the number of bytes, `EncodeVarint64` is a loop; both write what
`varint` of the codec library does. Of the readers, `GetVarint32Ptr` has a fast path for one byte
and `DecodeEntry` one for three numbers of one byte each. All of them read a number back that was
written, with whatever follows it, and refuse one that is cut off (`varints_read_back`).

Timestamps are written as zig-zag encoded differences. The negation of the smallest 64-bit number is
that number, so it alone is not read back; it is not the difference of two timestamps either, since
they are cut down to 63 bits first.
-/

namespace EloqStore.Varint

open ByteCodec List

/-! ### Writing -/

def moreByte (v : ℕ) : UInt8 := UInt8.ofNat (v ||| 128)

def encodeVarint32 (v : ℕ) : List UInt8 :=
  if v < 1 <<< 7 then [UInt8.ofNat v]
  else if v < 1 <<< 14 then [moreByte v, UInt8.ofNat (v >>> 7)]
  else if v < 1 <<< 21 then [moreByte v, moreByte (v >>> 7), UInt8.ofNat (v >>> 14)]
  else if v < 1 <<< 28 then
    [moreByte v, moreByte (v >>> 7), moreByte (v >>> 14), UInt8.ofNat (v >>> 21)]
  else
    [moreByte v, moreByte (v >>> 7), moreByte (v >>> 14), moreByte (v >>> 21),
      UInt8.ofNat (v >>> 28)]

def encodeVarint64 (v : ℕ) : List UInt8 :=
  if 128 ≤ v then moreByte v :: encodeVarint64 (v >>> 7) else [UInt8.ofNat v]
termination_by v
decreasing_by
  rw [Nat.shiftRight_eq_div_pow]
  omega

def varintLength (v : ℕ) : ℕ := if 128 ≤ v then varintLength (v >>> 7) + 1 else 1
termination_by v
decreasing_by
  rw [Nat.shiftRight_eq_div_pow]
  omega

/-! ### Reading -/

def getVarint32PtrFallback (p : List UInt8) : Option (ℕ × List UInt8) := readVarint 32 5 0 0 p

def getVarint32Ptr : List UInt8 → Option (ℕ × List UInt8)
  | [] => getVarint32PtrFallback []
  | b :: p => if b.toNat &&& 128 = 0 then some (b.toNat, p) else getVarint32PtrFallback (b :: p)

def getVarint64Ptr (p : List UInt8) : Option (ℕ × List UInt8) := readVarint 64 10 0 0 p

/-- Three numbers, one behind the other. -/
def getThree (p : List UInt8) : Option ((ℕ × ℕ × ℕ) × List UInt8) :=
  (getVarint32Ptr p).bind fun x ↦
    (getVarint32Ptr x.2).bind fun y ↦
      (getVarint32Ptr y.2).map fun z ↦ ((x.1, y.1, z.1), z.2)

/-- The three numbers at the front of an entry, as `DecodeEntry` reads them. -/
def decodeEntryLengths : List UInt8 → Option ((ℕ × ℕ × ℕ) × List UInt8)
  | a :: b :: c :: p =>
    if a.toNat ||| b.toNat ||| c.toNat < 128 then some ((a.toNat, b.toNat, c.toNat), p)
    else getThree (a :: b :: c :: p)
  | _ => none

/-! ### Differences -/

def decodeInt64Delta (val : ℤ) : ℤ :=
  if val % 2 = 1 then toInt64 (-(val / 2)) else toInt64 (val / 2)

/-! ### What is written -/

theorem moreByte_eq (v : ℕ) : moreByte v = UInt8.ofNat (v % 128 + 128) := by
  have hbyte : ∀ x < 256, x ||| 128 = x % 128 + 128 := by decide +kernel
  refine UInt8.toNat_inj.1 ?_
  rw [moreByte, UInt8.toNat_ofNat', UInt8.toNat_ofNat', Nat.or_mod_two_pow,
    show 128 % 2 ^ 8 = 128 from rfl, hbyte _ (Nat.mod_lt _ (by decide))]
  omega

theorem length_encodeVarint64 (v : ℕ) : (encodeVarint64 v).length = varintLength v := by
  fun_induction encodeVarint64 v with
  | case1 v h ih => rw [varintLength, if_pos h, length_cons, ih]
  | case2 v h => rw [varintLength, if_neg h, length_singleton]

theorem encodeVarint64_more {v i : ℕ} (h : 2 ^ (i + 7) ≤ v) :
    encodeVarint64 (v >>> i) = moreByte (v >>> i) :: encodeVarint64 (v >>> (i + 7)) := by
  have hle : 128 ≤ v >>> i := by
    rw [Nat.shiftRight_eq_div_pow, Nat.le_div_iff_mul_le (Nat.two_pow_pos i), Nat.mul_comm]
    rwa [pow_add] at h
  rw [encodeVarint64, if_pos hle, Nat.shiftRight_add]

theorem encodeVarint64_last {v i : ℕ} (h : v < 2 ^ (i + 7)) :
    encodeVarint64 (v >>> i) = [UInt8.ofNat (v >>> i)] := by
  have hlt : v >>> i < 128 := by
    rw [Nat.shiftRight_eq_div_pow, Nat.div_lt_iff_lt_mul (Nat.two_pow_pos i), Nat.mul_comm]
    rwa [pow_add] at h
  rw [encodeVarint64, if_neg (not_le.2 hlt)]

/-- **The unrolled writer is the loop.** -/
theorem encodeVarint32_eq {v : ℕ} (hv : v < 2 ^ 32) : encodeVarint32 v = encodeVarint64 v := by
  have hzero : encodeVarint64 v = encodeVarint64 (v >>> 0) := rfl
  rw [encodeVarint32, hzero]
  split
  · next h => exact (encodeVarint64_last (i := 0) h).symm
  · next h =>
    rw [encodeVarint64_more (not_lt.1 h)]
    split
    · next h => rw [encodeVarint64_last h]; rfl
    · next h =>
      rw [encodeVarint64_more (not_lt.1 h)]
      split
      · next h => rw [encodeVarint64_last h]; rfl
      · next h =>
        rw [encodeVarint64_more (not_lt.1 h)]
        split
        · next h => rw [encodeVarint64_last h]; rfl
        · next h =>
          rw [encodeVarint64_more (not_lt.1 h), encodeVarint64_last (i := 28) (by omega)]
          rfl

theorem encodeVarint64_eq {k v : ℕ} (hk : 0 < k) (hv : v < 128 ^ k) :
    encodeVarint64 v = varint k v := by
  induction k generalizing v with
  | zero => exact absurd hk (by omega)
  | succ k ih =>
    rw [encodeVarint64, varint, moreByte_eq, Nat.shiftRight_eq_div_pow]
    by_cases hsmall : v < 128
    · rw [if_pos hsmall, if_neg (by omega)]
    · have hdiv : v / 128 < 128 ^ k := (Nat.div_lt_iff_lt_mul (by decide)).2 (by rwa [← pow_succ])
      have hk' : 0 < k := by
        by_contra hzero
        rw [show k = 0 by omega] at hdiv
        omega
      rw [if_neg hsmall, if_pos (by omega), ← ih hk' hdiv]

/-! ### What is read -/

/-- A number that is cut off is refused: every byte that is left announces another one. -/
theorem readVarint_take {w k shift acc v n : ℕ} (hn : n < (varint k v).length) :
    readVarint w k shift acc ((varint k v).take n) = none := by
  induction k generalizing shift acc v n with
  | zero => rfl
  | succ k ih =>
    cases n with
    | zero => rfl
    | succ n =>
      rw [varint] at hn ⊢
      split at hn
      · simp at hn
      · next hbig =>
        have hbyte : (UInt8.ofNat (v % 128 + 128)).toNat = v % 128 + 128 :=
          UInt8.toNat_ofNat_of_lt (show v % 128 + 128 < 256 by omega)
        rw [if_neg hbig, take_succ_cons, readVarint, hbyte, if_neg (by omega)]
        exact ih (Nat.lt_of_succ_lt_succ hn)

theorem getVarint32Ptr_of_lt {b : UInt8} (h : b.toNat < 128) (p : List UInt8) :
    getVarint32Ptr (b :: p) = some (b.toNat, p) := by
  have hbit : ∀ x < 128, x &&& 128 = 0 := by decide +kernel
  rw [getVarint32Ptr, if_pos (hbit _ h)]

/-- The fast path for one byte reads what the loop does. -/
theorem getVarint32Ptr_eq (p : List UInt8) : getVarint32Ptr p = getVarint32PtrFallback p := by
  cases p with
  | nil => rfl
  | cons b p =>
    by_cases h : b.toNat < 128
    · have hmod : b.toNat % 2 ^ 32 = b.toNat := Nat.mod_eq_of_lt (by omega)
      rw [getVarint32Ptr_of_lt h, getVarint32PtrFallback, readVarint, if_pos h, Nat.shiftLeft_zero,
        Nat.mod_eq_of_lt h, hmod, Nat.zero_or]
    · have hbit : ∀ x < 256, 128 ≤ x → x &&& 128 ≠ 0 := by decide +kernel
      rw [getVarint32Ptr, if_neg (hbit _ b.toNat_lt (not_lt.1 h))]

/-- The fast path for three bytes reads what three calls do. -/
theorem decodeEntryLengths_eq {p : List UInt8} (h : 3 ≤ p.length) :
    decodeEntryLengths p = getThree p := by
  match p, h with
  | a :: b :: c :: p, _ =>
    rw [decodeEntryLengths]
    split
    · next hfast =>
      have hab := Nat.left_le_or.trans_lt hfast
      have hc := Nat.right_le_or.trans_lt hfast
      have ha := Nat.left_le_or.trans_lt hab
      have hb := Nat.right_le_or.trans_lt hab
      rw [getThree, getVarint32Ptr_of_lt ha, Option.bind_some, getVarint32Ptr_of_lt hb,
        Option.bind_some, getVarint32Ptr_of_lt hc]
      rfl
    · rfl

theorem getVarint32Ptr_encode (v : UInt32) (rest : List UInt8) :
    getVarint32Ptr (encodeVarint32 v.toNat ++ rest) = some (v.toNat, rest) := by
  have hlt := v.toNat_lt
  rw [getVarint32Ptr_eq, encodeVarint32_eq hlt, encodeVarint64_eq (k := 5) (by decide) (by omega)]
  exact readVarint_varint (by decide) (by decide) hlt rest

theorem length_encodeVarint32_pos (v : UInt32) : 0 < (encodeVarint32 v.toNat).length := by
  rw [encodeVarint32_eq v.toNat_lt, length_encodeVarint64, varintLength]
  split <;> omega

/-- **Every reader reads a number back that was written**, with its length as announced, and refuses
it where it is cut off. Of the differences with a sign only the smallest is not read back, and those
of timestamps always are. -/
theorem varints_read_back :
    (∀ v : UInt32, (encodeVarint32 v.toNat).length = varintLength v.toNat ∧
      (∀ rest, getVarint32Ptr (encodeVarint32 v.toNat ++ rest) = some (v.toNat, rest) ∧
        getVarint32PtrFallback (encodeVarint32 v.toNat ++ rest) = some (v.toNat, rest)) ∧
      ∀ n < (encodeVarint32 v.toNat).length,
        getVarint32Ptr ((encodeVarint32 v.toNat).take n) = none) ∧
    (∀ v : UInt64, (encodeVarint64 v.toNat).length = varintLength v.toNat ∧
      (∀ rest, getVarint64Ptr (encodeVarint64 v.toNat ++ rest) = some (v.toNat, rest)) ∧
      ∀ n < (encodeVarint64 v.toNat).length,
        getVarint64Ptr ((encodeVarint64 v.toNat).take n) = none) ∧
    (∀ (a b c : UInt32) rest,
      decodeEntryLengths (encodeVarint32 a.toNat ++ (encodeVarint32 b.toNat ++
        (encodeVarint32 c.toNat ++ rest))) = some ((a.toNat, b.toNat, c.toNat), rest)) ∧
    (∀ delta, -2 ^ 63 ≤ delta → delta < 2 ^ 63 →
      (decodeInt64Delta (encodeInt64Delta delta) = delta ↔ delta ≠ -2 ^ 63)) ∧
    ∀ ts last : UInt64, decodeInt64Delta
        (encodeInt64Delta (clampTimestampToInt64 ts - clampTimestampToInt64 last)) =
      clampTimestampToInt64 ts - clampTimestampToInt64 last := by
  refine ⟨fun v ↦ ?_, fun v ↦ ?_, fun a b c rest ↦ ?_, fun delta hlow hhigh ↦ ?_,
    fun ts last ↦ ?_⟩
  · have hlt := v.toNat_lt
    refine ⟨by rw [encodeVarint32_eq hlt, length_encodeVarint64], fun rest ↦ ?_, fun n hn ↦ ?_⟩
    · rw [← getVarint32Ptr_eq]
      exact ⟨getVarint32Ptr_encode v rest, getVarint32Ptr_encode v rest⟩
    · rw [encodeVarint32_eq hlt, encodeVarint64_eq (k := 5) (by decide) (by omega)] at hn ⊢
      rw [getVarint32Ptr_eq]
      exact readVarint_take hn
  · have hlt := v.toNat_lt
    have heq := encodeVarint64_eq (k := 10) (by decide) (hlt.trans_le (by decide))
    refine ⟨length_encodeVarint64 _, fun rest ↦ ?_, fun n hn ↦ ?_⟩
    · rw [heq]
      exact readVarint_varint (by decide) (by decide) hlt rest
    · rw [heq] at hn ⊢
      exact readVarint_take hn
  · rw [decodeEntryLengths_eq, getThree, getVarint32Ptr_encode, Option.bind_some,
      getVarint32Ptr_encode, Option.bind_some, getVarint32Ptr_encode]
    · rfl
    · have ha := length_encodeVarint32_pos a
      have hb := length_encodeVarint32_pos b
      have hc := length_encodeVarint32_pos c
      simp only [length_append]
      omega
  · rw [encodeInt64Delta, decodeInt64Delta, toInt64, toInt64, toInt64]
    split <;> split <;> omega
  · rw [encodeInt64Delta, decodeInt64Delta, toInt64, toInt64, toInt64, clampTimestampToInt64,
      clampTimestampToInt64]
    split <;> split <;> omega

/-- **The smallest difference is read back as zero.** -/
theorem smallest_delta_lost : encodeInt64Delta (-2 ^ 63) = 1 ∧ decodeInt64Delta 1 = 0 := by
  decide

end EloqStore.Varint

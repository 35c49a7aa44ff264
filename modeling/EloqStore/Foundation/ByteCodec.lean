import Mathlib.Data.List.Basic
import Mathlib.Tactic.Ring

/-!
# Bytes of numbers

Fixed-width little-endian integers, base-128 varints, and sequences read until the input is used up.
Nothing here knows what the numbers mean.

* `fixed w n` is `n` in exactly `w` bytes, least significant first, **without the bits above**;
  `ofFixed` reads it back.
* `varint k n` is `n` in groups of seven bits, at most `k` of them, each but the last with the top
  bit set. `readVarint` is the reader's loop: a shift, an accumulator, and a bound on the groups it
  looks at (`readVarint_varint`). It reads nothing from fewer bytes than it is written in
  (`length_varint_le_of_readVarint`).
* `readAll` applies a reader until nothing is left, and undoes any concatenation of what the reader
  undoes (`readAll_flatMap`).
-/

namespace ByteCodec

/-! ### Fixed width -/

/-- The lowest `w` bytes of a number, least significant first. -/
def fixed : ℕ → ℕ → List UInt8
  | 0, _ => []
  | w + 1, n => UInt8.ofNat n :: fixed w (n / 256)

/-- The number with the given bytes. -/
def ofFixed : List UInt8 → ℕ
  | [] => 0
  | b :: bs => b.toNat + 256 * ofFixed bs

@[simp] theorem length_fixed (w n : ℕ) : (fixed w n).length = w := by
  induction w generalizing n with
  | zero => rfl
  | succ w ih => rw [fixed, List.length_cons, ih]

theorem ofFixed_fixed (w n : ℕ) : ofFixed (fixed w n) = n % 256 ^ w := by
  induction w generalizing n with
  | zero => rw [fixed, ofFixed, pow_zero, Nat.mod_one]
  | succ w ih =>
    have hbyte : (UInt8.ofNat n).toNat = n % 256 := UInt8.toNat_ofNat'
    rw [fixed, ofFixed, ih, hbyte, pow_succ', Nat.mod_mul]

theorem ofFixed_lt (bytes : List UInt8) : ofFixed bytes < 256 ^ bytes.length := by
  induction bytes with
  | nil => exact Nat.one_pos
  | cons b bytes ih =>
    have hb := b.toNat_lt
    rw [ofFixed, List.length_cons, pow_succ]
    omega

theorem length_flatMap_fixed (w : ℕ) (ns : List ℕ) :
    (ns.flatMap (fixed w)).length = w * ns.length := by
  simp [List.length_flatMap, Nat.mul_comm]

/-! ### Varints -/

/-- A number in groups of seven bits, lowest first, in at most `k` bytes. -/
def varint : ℕ → ℕ → List UInt8
  | 0, _ => []
  | k + 1, n =>
    if n < 128 then [UInt8.ofNat n] else UInt8.ofNat (n % 128 + 128) :: varint k (n / 128)

/-- Read a varint into `w` bits, looking at no more than `k` bytes. -/
def readVarint (w : ℕ) : ℕ → ℕ → ℕ → List UInt8 → Option (ℕ × List UInt8)
  | 0, _, _, _ => none
  | _ + 1, _, _, [] => none
  | k + 1, shift, acc, b :: bs =>
    let acc' := acc ||| ((b.toNat % 128) <<< shift) % 2 ^ w
    if b.toNat < 128 then some (acc', bs) else readVarint w k (shift + 7) acc' bs

/-- A group of bits above an accumulator is added to it. -/
private theorem or_group {acc g shift w : ℕ} (hacc : acc < 2 ^ shift)
    (hg : acc + g * 2 ^ shift < 2 ^ w) :
    acc ||| (g <<< shift) % 2 ^ w = acc + g * 2 ^ shift := by
  have hlt : g <<< shift < 2 ^ w := by
    omega
  rw [Nat.mod_eq_of_lt hlt, Nat.or_comm, ← Nat.shiftLeft_add_eq_or_of_lt hacc, Nat.shiftLeft_eq,
    Nat.add_comm]

/-- The loop adds what is left of the number above what it has read. -/
theorem readVarint_varint_aux {w k shift acc n : ℕ} (hn : n < 128 ^ k) (hacc : acc < 2 ^ shift)
    (hfit : acc + n * 2 ^ shift < 2 ^ w) (hk : 0 < k) (rest : List UInt8) :
    readVarint w k shift acc (varint k n ++ rest) = some (acc + n * 2 ^ shift, rest) := by
  induction k generalizing n shift acc with
  | zero => exact absurd hk (by omega)
  | succ k ih =>
    rw [varint]
    split
    · next hsmall =>
      have hbyte : (UInt8.ofNat n).toNat = n :=
        UInt8.toNat_ofNat_of_lt (show n < 256 by omega)
      rw [List.singleton_append, readVarint, hbyte, Nat.mod_eq_of_lt hsmall, if_pos hsmall,
        or_group hacc hfit]
    · next hbig =>
      have hbyte : (UInt8.ofNat (n % 128 + 128)).toNat = n % 128 + 128 :=
        UInt8.toNat_ofNat_of_lt (show n % 128 + 128 < 256 by omega)
      have hgroup : (n % 128 + 128) % 128 = n % 128 := by omega
      have hsplit : n * 2 ^ shift = n % 128 * 2 ^ shift + n / 128 * 2 ^ (shift + 7) := by
        conv_lhs => rw [← Nat.mod_add_div n 128]
        ring
      have hlow : acc + n % 128 * 2 ^ shift < 2 ^ (shift + 7) := by
        have hle : n % 128 * 2 ^ shift ≤ 127 * 2 ^ shift :=
          Nat.mul_le_mul_right _ (by omega)
        rw [pow_add]
        omega
      have hdiv : n / 128 < 128 ^ k := by
        rw [Nat.div_lt_iff_lt_mul (by omega)]
        rwa [pow_succ] at hn
      have hk' : 0 < k := by
        by_contra hzero
        have : k = 0 := by omega
        subst this
        omega
      rw [List.cons_append, readVarint, hbyte, hgroup, if_neg (by omega),
        or_group hacc (by omega)]
      rw [ih hdiv hlow (by omega) hk']
      congr 2
      omega

/-- **A varint reads back**, whatever follows it. -/
theorem readVarint_varint {w k n : ℕ} (hk : 0 < k) (hw : 2 ^ w ≤ 128 ^ k) (hn : n < 2 ^ w)
    (rest : List UInt8) : readVarint w k 0 0 (varint k n ++ rest) = some (n, rest) := by
  have h : readVarint w k 0 0 (varint k n ++ rest) = some (0 + n * 2 ^ 0, rest) :=
    readVarint_varint_aux (hn.trans_le hw) (by omega) (by omega) hk rest
  rwa [pow_zero, mul_one, Nat.zero_add] at h

theorem varint_ne_nil {k : ℕ} (hk : 0 < k) (n : ℕ) : varint k n ≠ [] := by
  cases k with
  | zero => exact absurd hk (by omega)
  | succ k =>
    rw [varint]
    split <;> simp

/-- A varint is as short as the number allows. -/
theorem length_varint_le {k n v : ℕ} (hn : 0 < n) (hv : v < 128 ^ n) :
    (varint k v).length ≤ n := by
  induction k generalizing n v with
  | zero => exact Nat.zero_le n
  | succ k ih =>
    rw [varint]
    split
    · exact hn
    · next hlarge =>
      obtain ⟨n, rfl⟩ := Nat.exists_eq_add_of_le' hn
      rw [pow_succ] at hv
      have hpos : 0 < n := Nat.pos_of_ne_zero fun hzero ↦ by simp [hzero] at hv; omega
      exact Nat.succ_le_succ (ih hpos (Nat.div_lt_of_lt_mul (by omega)))

/-- A varint is no shorter than the number allows. -/
theorem le_length_varint {k n v : ℕ} (hk : n < k) (hv : 128 ^ n ≤ v) :
    n + 1 ≤ (varint k v).length := by
  induction n generalizing k v with
  | zero => exact List.length_pos_iff.2 (varint_ne_nil hk v)
  | succ n ih =>
    obtain ⟨k, rfl⟩ := Nat.exists_eq_add_of_lt (Nat.zero_lt_of_lt hk)
    rw [pow_succ] at hv
    have hone : 1 ≤ 128 ^ n := Nat.one_le_two_pow.trans (Nat.pow_le_pow_left (by omega) n)
    rw [varint, if_neg (by omega)]
    exact Nat.succ_le_succ (ih (by omega) ((Nat.le_div_iff_mul_le (by omega)).2 hv))

/-- What is read from `n` bytes has no more than `n` groups. -/
theorem readVarint_lt {w k shift acc v : ℕ} {bytes rest : List UInt8} (hacc : acc < 2 ^ shift)
    (h : readVarint w k shift acc bytes = some (v, rest)) :
    ∃ n, 0 < n ∧ bytes.length = n + rest.length ∧ v < 2 ^ (shift + 7 * n) := by
  induction k generalizing shift acc bytes with
  | zero => cases h
  | succ k ih =>
    cases bytes with
    | nil => cases h
    | cons b bytes =>
      have hacc' : acc ||| ((b.toNat % 128) <<< shift) % 2 ^ w < 2 ^ (shift + 7) := by
        refine Nat.or_lt_two_pow (hacc.trans_le (Nat.pow_le_pow_right (by omega) (by omega))) ?_
        refine (Nat.mod_le _ _).trans_lt ?_
        rw [Nat.shiftLeft_eq, pow_add, Nat.mul_comm]
        exact Nat.mul_lt_mul_of_pos_left (Nat.mod_lt _ (by omega)) (Nat.two_pow_pos _)
      rw [readVarint] at h
      split at h
      · cases h
        exact ⟨1, by omega, by rw [List.length_cons, Nat.add_comm], hacc'⟩
      · obtain ⟨n, -, hlen, hv⟩ := ih hacc' h
        exact ⟨n + 1, by omega, by rw [List.length_cons, hlen]; omega, by
          rwa [show shift + 7 * (n + 1) = shift + 7 + 7 * n by omega]⟩

/-- **No varint is read from fewer bytes than it is written in.** -/
theorem length_varint_le_of_readVarint {w k k' v v' : ℕ} {bytes rest : List UInt8}
    (h : readVarint w k 0 0 bytes = some (v, rest)) (hv' : v' ≤ v) :
    (varint k' v').length + rest.length ≤ bytes.length := by
  obtain ⟨n, hn, hlen, hv⟩ := readVarint_lt (by omega) h
  rw [Nat.zero_add, pow_mul] at hv
  have hle : (varint k' v').length ≤ n := length_varint_le hn (hv'.trans_lt hv)
  omega

/-! ### Sequences -/

variable {α : Type*}

/-- Apply a reader until nothing is left; the first argument bounds the number of times. -/
def readAll (read : List UInt8 → Option (α × List UInt8)) : ℕ → List UInt8 → Option (List α)
  | _, [] => some []
  | 0, _ :: _ => none
  | k + 1, b :: bs => (read (b :: bs)).bind fun p ↦ (readAll read k p.2).map (p.1 :: ·)

/-- **What a reader undoes one by one, it undoes in sequence.** -/
theorem readAll_flatMap {read : List UInt8 → Option (α × List UInt8)} {write : α → List UInt8}
    {as : List α} (hread : ∀ a ∈ as, ∀ rest, read (write a ++ rest) = some (a, rest))
    (hne : ∀ a ∈ as, write a ≠ []) {k : ℕ} (hk : (as.flatMap write).length ≤ k) :
    readAll read k (as.flatMap write) = some as := by
  induction as generalizing k with
  | nil =>
    cases k <;> rfl
  | cons a as ih =>
    rw [List.flatMap_cons] at hk ⊢
    have hfirst := hread a List.mem_cons_self (as.flatMap write)
    have hpos : 0 < (write a).length := List.length_pos_iff.2 (hne a List.mem_cons_self)
    rw [List.length_append] at hk
    obtain ⟨b, bs, hcons⟩ := List.exists_cons_of_ne_nil
      (List.append_ne_nil_of_left_ne_nil (hne a List.mem_cons_self) (as.flatMap write))
    cases k with
    | zero => exact absurd hk (by omega)
    | succ k =>
      rw [hcons] at hfirst ⊢
      rw [readAll, hfirst, Option.bind_some,
        ih (fun a' ha' ↦ hread a' (List.mem_cons_of_mem _ ha'))
          (fun a' ha' ↦ hne a' (List.mem_cons_of_mem _ ha')) (by omega)]
      rfl

/-- What takes no fewer bytes one by one takes no fewer in sequence. -/
theorem length_flatMap_le_of_readAll {read : List UInt8 → Option (α × List UInt8)}
    {write : α → List UInt8} {as : List α}
    (hread : ∀ {bytes a rest}, read bytes = some (a, rest) →
      (write a).length + rest.length ≤ bytes.length) {k : ℕ} {bytes : List UInt8}
    (h : readAll read k bytes = some as) : (as.flatMap write).length ≤ bytes.length := by
  induction k generalizing bytes as with
  | zero =>
    cases bytes with
    | nil => cases h; exact le_rfl
    | cons b bytes => cases h
  | succ k ih =>
    cases bytes with
    | nil => cases h; exact le_rfl
    | cons b bytes =>
      obtain ⟨⟨a, rest⟩, hfirst, h⟩ := Option.bind_eq_some_iff.1 h
      obtain ⟨as, hrest, rfl⟩ := Option.map_eq_some_iff.1 h
      rw [List.flatMap_cons, List.length_append]
      exact (Nat.add_le_add_left (ih hrest) _).trans (hread hfirst)

end ByteCodec

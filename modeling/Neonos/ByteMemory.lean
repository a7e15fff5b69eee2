import Mathlib

/-! Byte-addressed little-endian memory with 64-bit addresses that wrap
around, and rows of doublewords in it: which stores a load can see. -/
namespace Neonos.ByteMemory

abbrev Memory := BitVec 64 → BitVec 8

/-- Byte `i` of what lies at an address. -/
def byte (m : Memory) (a : BitVec 64) (i : Nat) : BitVec 8 := m (a + BitVec.ofNat 64 i)

/-- The doubleword at an address. -/
def load (m : Memory) (a : BitVec 64) : BitVec 64 :=
  byte m a 7 ++ byte m a 6 ++ byte m a 5 ++ byte m a 4 ++ byte m a 3 ++ byte m a 2 ++ byte m a 1 ++
    byte m a 0

/-- Memory after a doubleword has been stored. -/
def store (m : Memory) (a v : BitVec 64) : Memory := fun p =>
  if (p - a).toNat < 8 then v.extractLsb' (8 * (p - a).toNat) 8 else m p

/-- Two doublewords that share no byte. -/
def Apart (a b : BitVec 64) : Prop := 8 ≤ (a - b).toNat ∧ 8 ≤ (b - a).toNat

instance (a b : BitVec 64) : Decidable (Apart a b) := inferInstanceAs (Decidable (_ ∧ _))

variable {m : Memory} {a b v base : BitVec 64} {n k l : Nat}

theorem Apart.symm (apart : Apart a b) : Apart b a := ⟨apart.2, apart.1⟩

theorem byte_store_same (m : Memory) (a v : BitVec 64) (inside : i < 8) :
    byte (store m a v) a i = v.extractLsb' (8 * i) 8 := by
  have offset : (a + BitVec.ofNat 64 i - a).toNat = i := by
    rw [BitVec.add_comm, BitVec.add_sub_cancel, BitVec.toNat_ofNat]
    omega
  unfold byte store
  rw [offset, if_pos inside]

theorem byte_store_apart (apart : Apart a b) (inside : i < 8) :
    byte (store m a v) b i = byte m b i := by
  obtain ⟨before, behind⟩ := apart
  have far : ¬ (b + BitVec.ofNat 64 i - a).toNat < 8 := by bv_omega
  unfold byte store
  rw [if_neg far]

theorem load_store_same (m : Memory) (a v : BitVec 64) : load (store m a v) a = v := by
  have bytes (i : Nat) (inside : i < 8) := byte_store_same m a v inside
  unfold load
  rw [bytes 7 (by decide), bytes 6 (by decide), bytes 5 (by decide), bytes 4 (by decide),
    bytes 3 (by decide), bytes 2 (by decide), bytes 1 (by decide), bytes 0 (by decide)]
  -- From the top: each byte joins the block of those above it.
  iterate 7 rw [BitVec.extractLsb'_append_extractLsb'_eq_extractLsb' (by rfl)]
  exact BitVec.extractLsb'_eq_self

theorem load_store_apart (apart : Apart a b) : load (store m a v) b = load m b := by
  have bytes (i : Nat) (inside : i < 8) : byte (store m a v) b i = byte m b i :=
    byte_store_apart apart inside
  unfold load
  rw [bytes 7 (by decide), bytes 6 (by decide), bytes 5 (by decide), bytes 4 (by decide),
    bytes 3 (by decide), bytes 2 (by decide), bytes 1 (by decide), bytes 0 (by decide)]

/-! ### Rows of doublewords -/

/-- The `k`-th doubleword from a base. -/
def slot (base : BitVec 64) (k : Nat) : BitVec 64 := base + BitVec.ofNat 64 (8 * k)

/-- The doubleword at `a` shares no byte with the first `n` doublewords from the base. -/
def Outside (base : BitVec 64) (n : Nat) (a : BitVec 64) : Prop :=
  8 * n ≤ (a - base).toNat ∧ (a - base).toNat + 8 ≤ 2 ^ 64

instance (base : BitVec 64) (n : Nat) (a : BitVec 64) : Decidable (Outside base n a) :=
  inferInstanceAs (Decidable (_ ∧ _))

theorem slots_apart (fits : 8 * n ≤ 2 ^ 64) (first : k < n) (second : l < n) (different : k ≠ l) :
    Apart (slot base k) (slot base l) := by
  unfold Apart slot
  constructor <;> bv_omega

theorem Outside.apart (outside : Outside base n a) (inside : k < n) : Apart (slot base k) a := by
  obtain ⟨above, whole⟩ := outside
  unfold Apart slot
  constructor <;> bv_omega

/-- Stores to some slots of a row, one after the other. -/
def storeSlots (m : Memory) (base : BitVec 64) (value : Nat → BitVec 64) (slots : List Nat) : Memory :=
  slots.foldl (fun m k => store m (slot base k) (value k)) m

theorem storeSlots_append (m : Memory) (base : BitVec 64) (value : Nat → BitVec 64)
    (first second : List Nat) :
    storeSlots (storeSlots m base value first) base value second =
      storeSlots m base value (first ++ second) := by
  simp [storeSlots, List.foldl_append]

/-- A load apart from every stored slot sees the old memory. -/
theorem load_storeSlots_apart {slots : List Nat} {value : Nat → BitVec 64}
    (apart : ∀ k ∈ slots, Apart (slot base k) a) : load (storeSlots m base value slots) a = load m a := by
  induction slots generalizing m with
  | nil => rfl
  | cons k slots ih =>
    have rest : load (storeSlots (store m (slot base k) (value k)) base value slots) a =
        load (store m (slot base k) (value k)) a :=
      ih fun l member => apart l (List.mem_cons_of_mem k member)
    exact rest.trans (load_store_apart (apart k List.mem_cons_self))

theorem load_storeSlots_outside {slots : List Nat} {value : Nat → BitVec 64}
    (outside : Outside base n a) (within : ∀ k ∈ slots, k < n) :
    load (storeSlots m base value slots) a = load m a :=
  load_storeSlots_apart fun k member => outside.apart (within k member)

/-- Each stored slot holds its own value in the end. -/
theorem load_storeSlots {slots : List Nat} {value : Nat → BitVec 64} (fits : 8 * n ≤ 2 ^ 64)
    (within : ∀ k ∈ slots, k < n) (distinct : slots.Nodup) (member : k ∈ slots) :
    load (storeSlots m base value slots) (slot base k) = value k := by
  induction slots generalizing m with
  | nil => cases member
  | cons l slots ih =>
    obtain ⟨fresh, distinct⟩ := List.nodup_cons.mp distinct
    have within' : ∀ k ∈ slots, k < n := fun k later => within k (List.mem_cons_of_mem l later)
    rcases List.mem_cons.mp member with rfl | later
    · have rest : load (storeSlots (store m (slot base k) (value k)) base value slots) (slot base k) =
          load (store m (slot base k) (value k)) (slot base k) := by
        apply load_storeSlots_apart
        intro l later
        refine slots_apart fits (within' l later) (within k List.mem_cons_self) ?_
        rintro rfl
        exact fresh later
      exact rest.trans (load_store_same m (slot base k) (value k))
    · exact ih within' distinct later

end Neonos.ByteMemory

import MegaZK.Device
import MegaZK.Lib.Cover
import MegaZK.Lib.Grid

/-! # Kernel launches

A launch outside the limits of the device is an error, which the source unwraps. A thread that
stores outside its buffer faults. The threads of a launch read what the buffers held before it,
except for what they stored themselves. -/

namespace MegaZK

open Grid Scatter

variable {F : Type} {ι : Type}

/-- What stops a prove on the device. -/
inductive DeviceError
  | invalidConfiguration
  | assertion
  | outOfBounds
  deriving DecidableEq, Repr

/-- The bits of an `unsigned` read as an `int`. -/
def i32 (x : ℕ) : ℤ := if u32 x < 2 ^ 31 then u32 x else (u32 x : ℤ) - 2 ^ 32

lemma i32_of_lt {x : ℕ} (hx : x < 2 ^ 31) : i32 x = x := by
  have hu : u32 x = x := u32_of_lt (by omega)
  rw [i32, hu, if_pos hx]

/-- `const unsigned degree = 1 << degree_bits`. -/
def shlUnsigned (k : ℕ) : Option ℕ := if k < 32 then some (2 ^ k) else none

/-- The sizes that the device accepts for a grid of `gy` rows of `gx` blocks of `bx` threads. -/
def ValidLaunch (gy gx bx : ℕ) : Prop :=
  (0 < gy ∧ gy < 2 ^ 16) ∧ (0 < gx ∧ gx < 2 ^ 31) ∧ 0 < bx ∧ bx ≤ maxThreadsPerBlock

instance (gy gx bx : ℕ) : Decidable (ValidLaunch gy gx bx) := by
  unfold ValidLaunch
  infer_instance

/-- The threads of a launch. -/
def launch (gy gx bx : ℕ) : Except DeviceError (List Thread) :=
  if ValidLaunch gy gx bx then .ok (threads gy gx bx) else .error .invalidConfiguration

/-- The numbers below `limit` of the threads of a launch. -/
def gridIds (blocks bx limit : ℕ) : Option (List ℕ) := do
  let ths ← (launch 1 blocks bx).toOption
  return (ths.map fun th => u32 (th.x * bx + th.t)).filter fun gId => gId < limit

/-- Every thread of the list stores one value. -/
def DeviceBuffer.store (b : DeviceBuffer F) (l : List ι) (dst : ι → ℤ) (val : ι → F) :
    Except DeviceError (DeviceBuffer F) :=
  if ∀ t ∈ l, 0 ≤ dst t ∧ dst t < b.len then
    .ok { b with cell := scatter l (fun t => (dst t).toNat) val b.cell }
  else .error .outOfBounds

lemma launch_of_valid {gy gx bx : ℕ} (h : ValidLaunch gy gx bx) :
    launch gy gx bx = .ok (threads gy gx bx) := if_pos h

variable {b : DeviceBuffer F} {l : List ι} {dst : ι → ℤ} {val : ι → F}

/-- Threads with distinct addresses inside the buffer: every one finds its value at its address
and the other cells stay. -/
lemma DeviceBuffer.store_spec (b : DeviceBuffer F) (dst : ι → ℤ) (val : ι → F) (adr : ι → ℕ)
    (hdst : ∀ t ∈ l, dst t = adr t)
    (hlen : ∀ t ∈ l, adr t < b.len) (hinj : ∀ t ∈ l, ∀ t' ∈ l, adr t' = adr t → t' = t) :
    ∃ b', b.store l dst val = .ok b' ∧ b'.len = b.len ∧ (∀ t ∈ l, b'.cell (adr t) = val t) ∧
      ∀ a, (∀ t ∈ l, adr t ≠ a) → b'.cell a = b.cell a := by
  have hnat : ∀ t ∈ l, (dst t).toNat = adr t := by
    intro t ht
    rw [hdst t ht, Int.toNat_natCast]
  refine ⟨_, if_pos ?_, rfl, ?_, ?_⟩
  · intro t ht
    have := hlen t ht
    rw [hdst t ht]
    omega
  · intro t ht
    rw [← hnat t ht]
    refine scatter_of_mem _ val b.cell ht ?_
    intro t' ht' h
    rw [hnat t' ht', hnat t ht] at h
    exact hinj t ht t' ht' h
  · intro a ha
    refine scatter_of_forall_ne b.cell ?_
    intro t ht
    rw [hnat t ht]
    exact ha t ht

/-- One thread outside the buffer is enough for a fault. -/
lemma DeviceBuffer.store_error {t : ι} (ht : t ∈ l) (h : dst t < 0 ∨ (b.len : ℤ) ≤ dst t) :
    b.store l dst val = .error .outOfBounds := by
  apply if_neg
  intro hall
  have := hall t ht
  omega

/-- Every pair is an address and what is stored there. -/
def DeviceBuffer.storeAll (b : DeviceBuffer F) (writes : List (ℕ × F)) : Option (DeviceBuffer F) :=
  (b.store writes (fun w => w.1) (fun w => w.2)).toOption

lemma DeviceBuffer.store_len {b' : DeviceBuffer F} (h : (b.store l dst val).toOption = some b') :
    b'.len = b.len := by
  rw [DeviceBuffer.store] at h
  split_ifs at h
  · cases h
    rfl
  · cases h

lemma DeviceBuffer.storeAll_len {b b' : DeviceBuffer F} {writes : List (ℕ × F)}
    (h : b.storeAll writes = some b') : b'.len = b.len := store_len h

lemma DeviceBuffer.storeAll_nil (b : DeviceBuffer F) : b.storeAll [] = some b := by
  simp [storeAll, DeviceBuffer.store, Except.toOption]

lemma DeviceBuffer.storeAll_of_forall_ne {b b' : DeviceBuffer F} {writes : List (ℕ × F)}
    (h : b.storeAll writes = some b') {a : ℕ} (ha : ∀ w ∈ writes, w.1 ≠ a) :
    b'.cell a = b.cell a := by
  rw [storeAll, DeviceBuffer.store] at h
  split_ifs at h
  · cases h
    exact scatter_of_forall_ne b.cell ha
  · cases h

/-- Stores that agree on shared addresses. -/
lemma DeviceBuffer.storeAll_spec (b : DeviceBuffer F) {writes : List (ℕ × F)}
    (hlen : ∀ w ∈ writes, w.1 < b.len)
    (hagree : ∀ w ∈ writes, ∀ w' ∈ writes, w'.1 = w.1 → w'.2 = w.2) :
    ∃ b', b.storeAll writes = some b' ∧ b'.len = b.len ∧ (∀ w ∈ writes, b'.cell w.1 = w.2) ∧
      ∀ a, (∀ w ∈ writes, w.1 ≠ a) → b'.cell a = b.cell a := by
  have hstore : b.store writes (fun w => w.1) (fun w => w.2) =
      .ok { b with cell := scatter writes (fun w => (w.1 : ℤ).toNat) (fun w => w.2) b.cell } := by
    apply if_pos
    intro w hw
    have := hlen w hw
    dsimp only
    omega
  simp only [Int.toNat_natCast] at hstore
  refine ⟨{ b with cell := scatter writes (fun w => w.1) (fun w => w.2) b.cell },
    by rw [storeAll, hstore]; rfl, rfl, ?_, ?_⟩
  · intro w hw
    exact scatter_of_forall_eq b.cell ⟨w, hw, rfl⟩ (fun w' hw' h => hagree w hw w' hw' h)
  · intro a ha
    exact scatter_of_forall_ne b.cell ha

/-- A store of one value at every address of an interval. -/
lemma DeviceBuffer.storeAll_of_covers (b : DeviceBuffer F) {adr : ι → ℕ} {s n : ℕ}
    (h : Cover.Covers l adr s n) (hlen : n ≤ b.len) (val : ι → F) {writes : List (ℕ × F)}
    (hwrites : ∀ w, w ∈ writes ↔ ∃ x ∈ l, (adr x, val x) = w) :
    ∃ b', b.storeAll writes = some b' ∧ b'.len = b.len ∧ ∀ x ∈ l, b'.cell (adr x) = val x := by
  have hlt : ∀ w ∈ writes, w.1 < b.len := by
    intro w hw
    obtain ⟨x, hx, rfl⟩ := (hwrites w).mp hw
    exact (h.lt hx).trans_le hlen
  have hagree : ∀ w ∈ writes, ∀ w' ∈ writes, w'.1 = w.1 → w'.2 = w.2 := by
    intro w hw w' hw' heq
    obtain ⟨x, hx, rfl⟩ := (hwrites w).mp hw
    obtain ⟨x', hx', rfl⟩ := (hwrites w').mp hw'
    rw [h.inj hx' hx heq]
  obtain ⟨b', hb', hlen', hwritten, -⟩ := b.storeAll_spec hlt hagree
  exact ⟨b', hb', hlen', fun x hx => hwritten _ ((hwrites _).mpr ⟨x, hx, rfl⟩)⟩

/-- The numbers of the threads of a row of blocks. -/
lemma exists_thread_iff {blocks bx : ℕ} (hvalid : ValidLaunch 1 blocks bx)
    (hfits : blocks * bx ≤ 2 ^ 32) {gId : ℕ} :
    (∃ th ∈ threads 1 blocks bx, u32 (th.x * bx + th.t) = gId) ↔ gId < blocks * bx := by
  simp only [mem_threads]
  constructor
  · rintro ⟨th, ⟨-, hx, ht⟩, rfl⟩
    calc u32 (th.x * bx + th.t) ≤ th.x * bx + th.t := Nat.mod_le _ _
      _ < (th.x + 1) * bx := by rw [Nat.succ_mul]; omega
      _ ≤ blocks * bx := Nat.mul_le_mul_right _ hx
  · intro hlt
    have hbx : 0 < bx := hvalid.2.2.1
    refine ⟨⟨0, gId / bx, gId % bx⟩, ⟨Nat.one_pos, ?_, Nat.mod_lt _ hbx⟩, ?_⟩
    · exact Nat.div_lt_of_lt_mul (by rwa [Nat.mul_comm])
    · dsimp only
      rw [Nat.div_add_mod', u32_of_lt (hlt.trans_le hfits)]

lemma mem_gridIds {blocks bx : ℕ} (limit : ℕ) (hvalid : ValidLaunch 1 blocks bx)
    (hfits : blocks * bx ≤ 2 ^ 32) :
    ∃ ids, gridIds blocks bx limit = some ids ∧
      ∀ gId, gId ∈ ids ↔ gId < blocks * bx ∧ gId < limit := by
  refine ⟨((threads 1 blocks bx).map fun th => u32 (th.x * bx + th.t)).filter
    fun gId => gId < limit, ?_, ?_⟩
  · simp [gridIds, launch_of_valid hvalid, Except.toOption]
  · intro gId
    rw [List.mem_filter, List.mem_map, exists_thread_iff hvalid hfits, decide_eq_true_eq]

lemma gridIds_spec {blocks bx : ℕ} (limit : ℕ) (hvalid : ValidLaunch 1 blocks bx)
    (hfits : blocks * bx ≤ 2 ^ 32) (hlimit : limit ≤ blocks * bx) :
    ∃ ids, gridIds blocks bx limit = some ids ∧ ∀ gId, gId ∈ ids ↔ gId < limit := by
  obtain ⟨ids, hids, hmem⟩ := mem_gridIds limit hvalid hfits
  refine ⟨ids, hids, fun gId => (hmem gId).trans ⟨And.right, fun hlt => ⟨?_, hlt⟩⟩⟩
  exact hlt.trans_le hlimit

/-- A kernel without a limit. -/
lemma gridIds_full {blocks bx : ℕ} (hvalid : ValidLaunch 1 blocks bx)
    (hfits : blocks * bx ≤ 2 ^ 32) :
    ∃ ids, gridIds blocks bx (2 ^ 32) = some ids ∧ ∀ gId, gId ∈ ids ↔ gId < blocks * bx := by
  obtain ⟨ids, hids, hmem⟩ := mem_gridIds (2 ^ 32) hvalid hfits
  refine ⟨ids, hids, fun gId => (hmem gId).trans ⟨And.left, fun hlt => ⟨hlt, ?_⟩⟩⟩
  exact hlt.trans_le hfits

section Threads

variable {gy gx bx : ℕ}

/-- A store by every thread at its number. -/
lemma store_flat (b : DeviceBuffer F) (dst : Thread → ℤ) (val : Thread → F) (cond : Thread → Bool)
    (hlen : gy * gx * bx ≤ b.len) (hfits : gy * gx * bx ≤ 2 ^ 31)
    (hdst : ∀ th, dst th = i32 (th.flat gx bx)) :
    ∃ b', b.store ((threads gy gx bx).filter cond) dst val = .ok b' ∧ b'.len = b.len ∧
      ∀ th ∈ threads gy gx bx,
        b'.cell (th.flat gx bx) = if cond th then val th else b.cell (th.flat gx bx) := by
  have hmem : ∀ th ∈ (threads gy gx bx).filter cond, th ∈ threads gy gx bx := by
    intro th hth
    exact List.mem_of_mem_filter hth
  obtain ⟨b', hb', hblen, hwritten, hkept⟩ := b.store_spec dst val
    (l := (threads gy gx bx).filter cond) (Thread.flat gx bx)
    (fun th hth => by
      rw [hdst, i32_of_lt]
      exact (Thread.flat_lt (hmem th hth)).trans_le hfits)
    (fun th hth => (Thread.flat_lt (hmem th hth)).trans_le hlen)
    (fun th hth th' hth' heq => Thread.flat_inj (hmem th' hth') (hmem th hth) heq)
  refine ⟨b', hb', hblen, ?_⟩
  intro th hth
  split_ifs with hcond
  · exact hwritten th (List.mem_filter.mpr ⟨hth, hcond⟩)
  · apply hkept
    intro th' hth' heq
    rw [Thread.flat_inj (hmem th' hth') hth heq] at hth'
    exact hcond (List.mem_filter.mp hth').2

end Threads

end MegaZK

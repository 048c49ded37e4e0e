import Art.Lib.Linked
import Art.Lib.Loop
import Art.Libdexfile.TypeLookupTable
import Art.Theorems.UtfOrder
import Mathlib.Data.Finset.Card
import Mathlib.Tactic.Push
import Mathlib.Tactic.SplitIfs

/-! The table of class definitions is an exact map. Every bucket of descriptors with the same low bits of the hash is a
    list threaded through the entries, and a lookup finds a descriptor because it walks its bucket from the first entry
    on, or a bucket without it. -/

namespace Art.Dex
open List Function
open UInt32 (ofNat ofNat_toNat size toNat_add toNat_and toNat_inj toNat_or)

/-! ### The fields of an entry -/

section words

variable {n : Nat} (hn : n ≤ 16)
include hn

theorem getMask_toNat : (getMask n).toNat = 2 ^ n - 1 := by
  have h : ∀ n < 17, (getMask n).toNat = 2 ^ n - 1 := by decide
  exact h n (by omega)

theorem and_getMask_toNat (x : UInt32) : (x &&& getMask n).toNat = x.toNat % 2 ^ n := by
  rw [toNat_and, getMask_toNat hn, Nat.and_two_pow_sub_one_eq_mod]

theorem toNat_ofNat_bits : (ofNat n).toNat = n := UInt32.toNat_ofNat_of_lt' (by norm_num [size]; omega)

theorem and_not_getMask_toNat (x : UInt32) : (x &&& ~~~getMask n).toNat = x.toNat / 2 ^ n * 2 ^ n := by
  have hmask : ∀ n < 17, (~~~getMask n).toNat = (2 ^ (32 - n) - 1) <<< n := by decide
  have hlt : x.toNat >>> n < 2 ^ (32 - n) := by
    rw [Nat.shiftRight_eq_div_pow, Nat.div_lt_iff_lt_mul (by positivity), ← Nat.pow_add, Nat.sub_add_cancel (by omega)]
    exact x.toNat_lt
  have hand : x.toNat &&& (2 ^ (32 - n) - 1) <<< n = (x.toNat >>> n &&& (2 ^ (32 - n) - 1)) <<< n := by
    refine Nat.eq_of_testBit_eq fun i => ?_
    simp only [Nat.testBit_and, Nat.testBit_shiftLeft, Nat.testBit_shiftRight]
    by_cases hi : n ≤ i
    · simp [hi]
    · simp [hi]
  rw [toNat_and, hmask n (by omega), hand, Nat.and_two_pow_sub_one_eq_mod, Nat.mod_eq_of_lt hlt,
    Nat.shiftLeft_eq, Nat.shiftRight_eq_div_pow]

theorem shift_toNat (x : UInt32) : (x.toUInt64 >>> UInt64.ofNat (2 * n)).toUInt32.toNat = x.toNat / 2 ^ (2 * n) := by
  have hbits : (UInt64.ofNat (2 * n)).toNat = 2 * n := UInt64.toNat_ofNat_of_lt' (by norm_num [UInt64.size]; omega)
  rw [UInt64.toNat_toUInt32, UInt64.toNat_shiftRight, hbits, UInt32.toNat_toUInt64,
    Nat.mod_eq_of_lt (by omega : 2 * n < 64),
    Nat.shiftRight_eq_div_pow, Nat.mod_eq_of_lt]
  exact Nat.lt_of_le_of_lt (Nat.div_le_self _ _) x.toNat_lt

end words

/-- The part of the hash that an entry keeps. -/
def hashBits (n : Nat) (hash : UInt32) : Nat := hash.toNat / 2 ^ n % 2 ^ (32 - 2 * n)

/-- The three fields lie side by side. -/
structure Packed (n : Nat) (data : UInt32) (hash : UInt32) (classDefIdx delta : Nat) : Prop where
  idx_lt : classDefIdx < 2 ^ n
  delta_lt : delta < 2 ^ n
  data_eq : data.toNat = (hashBits n hash * 2 ^ n + classDefIdx) * 2 ^ n + delta

/-- Shifting a packed entry drops the top bits of the hash only. -/
theorem shift_mod {n : Nat} (hn : n ≤ 16) (x : Nat) {low : Nat} (hlow : low < 2 ^ n) :
    (x * 2 ^ n + low) * 2 ^ n % 2 ^ 32 = (x % 2 ^ (32 - 2 * n) * 2 ^ n + low) * 2 ^ n := by
  have hsplit : 2 ^ 32 = 2 ^ (32 - 2 * n) * 2 ^ n * 2 ^ n := by
    rw [← Nat.pow_add, ← Nat.pow_add]
    congr 1
    omega
  rw [hsplit, Nat.mul_mod_mul_right]
  congr 1
  have hlt : x % 2 ^ (32 - 2 * n) * 2 ^ n + low < 2 ^ (32 - 2 * n) * 2 ^ n :=
    calc x % 2 ^ (32 - 2 * n) * 2 ^ n + low < (x % 2 ^ (32 - 2 * n) + 1) * 2 ^ n := by rw [Nat.add_mul]; omega
      _ ≤ 2 ^ (32 - 2 * n) * 2 ^ n := Nat.mul_le_mul_right _ (Nat.mod_lt _ (by positivity))
  calc (x * 2 ^ n + low) % (2 ^ (32 - 2 * n) * 2 ^ n)
      = (x % 2 ^ (32 - 2 * n) * 2 ^ n + low + 2 ^ (32 - 2 * n) * 2 ^ n * (x / 2 ^ (32 - 2 * n)))
          % (2 ^ (32 - 2 * n) * 2 ^ n) := by
        congr 1
        nth_rewrite 1 [← Nat.mod_add_div x (2 ^ (32 - 2 * n))]
        ring
    _ = _ := by rw [Nat.add_mul_mod_self_left, Nat.mod_eq_of_lt hlt]

namespace Packed

variable {n : Nat} {data hash : UInt32} {classDefIdx delta : Nat}

theorem setNextPosDelta {e : Entry} (h : Packed n e.data hash classDefIdx 0) {next : UInt32}
    (hnext : next.toNat < 2 ^ n) :
    Packed n (e.setNextPosDelta next).data hash classDefIdx next.toNat := by
  refine ⟨h.idx_lt, hnext, ?_⟩
  rw [Entry.setNextPosDelta, toNat_or, h.data_eq, Nat.add_zero, ← Nat.shiftLeft_eq, Nat.shiftLeft_add_eq_or_of_lt hnext]

theorem div_eq (h : Packed n data hash classDefIdx delta) :
    data.toNat / 2 ^ n = hashBits n hash * 2 ^ n + classDefIdx := by
  rw [h.data_eq, Nat.mul_comm, Nat.mul_add_div (by positivity), Nat.div_eq_of_lt h.delta_lt, Nat.add_zero]

variable (hn : n ≤ 16)
include hn

theorem new (strOffset : UInt32) (hidx : classDefIdx < 2 ^ n) :
    Packed n (Entry.new strOffset hash (ofNat classDefIdx) n).data hash classDefIdx 0 := by
  have hpow : 2 ^ n ≤ 2 ^ 16 := Nat.pow_le_pow_right (by decide) hn
  have hidx' : (ofNat classDefIdx).toNat = classDefIdx := UInt32.toNat_ofNat_of_lt' (by norm_num [size]; omega)
  refine ⟨hidx, by positivity, ?_⟩
  rw [Entry.new, UInt32.toNat_shiftLeft, toNat_or, and_not_getMask_toNat hn, hidx', toNat_ofNat_bits hn,
    Nat.mod_eq_of_lt (by omega : n < 32), ← Nat.shiftLeft_eq (hash.toNat / 2 ^ n), ← Nat.shiftLeft_add_eq_or_of_lt hidx,
    Nat.shiftLeft_eq, Nat.shiftLeft_eq, shift_mod hn _ hidx]
  rfl

variable {e : Entry} (h : Packed n e.data hash classDefIdx delta)
include h

theorem getNextPosDelta : (e.getNextPosDelta n).toNat = delta := by
  rw [Entry.getNextPosDelta, and_getMask_toNat hn, h.data_eq, Nat.mul_add_mod_self_right, Nat.mod_eq_of_lt h.delta_lt]

theorem getClassDefIdx : (e.getClassDefIdx n).toNat = classDefIdx := by
  rw [Entry.getClassDefIdx, and_getMask_toNat hn, UInt32.toNat_shiftRight, toNat_ofNat_bits hn,
    Nat.mod_eq_of_lt (by omega : n < 32), Nat.shiftRight_eq_div_pow, h.div_eq, Nat.mul_add_mod_self_right,
    Nat.mod_eq_of_lt h.idx_lt]

theorem isLast_iff : e.isLast n = true ↔ delta = 0 := by
  rw [Entry.isLast, decide_eq_true_iff, ← toNat_inj, h.getNextPosDelta hn]
  rfl

theorem getHashBits : (e.getHashBits n).toNat = hashBits n hash := by
  rw [Entry.getHashBits, shift_toNat hn, Nat.two_mul, Nat.pow_add, ← Nat.div_div_eq_div_mul, h.div_eq, Nat.mul_comm,
    Nat.mul_add_div (by positivity), Nat.div_eq_of_lt h.idx_lt, Nat.add_zero]

end Packed

theorem comparedHashBits_toNat {n : Nat} (hn : n ≤ 16) (hash : UInt32) :
    ((hash <<< ofNat n).toUInt64 >>> UInt64.ofNat (2 * n)).toUInt32.toNat = hashBits n hash := by
  have hshift : (hash <<< ofNat n).toNat = (hashBits n hash * 2 ^ n + hash.toNat % 2 ^ n) * 2 ^ n := by
    rw [UInt32.toNat_shiftLeft, toNat_ofNat_bits hn, Nat.mod_eq_of_lt (by omega : n < 32), Nat.shiftLeft_eq, hashBits,
      ← shift_mod hn _ (Nat.mod_lt _ (by positivity)), Nat.div_add_mod']
  rw [shift_toNat hn, hshift, Nat.two_mul, Nat.pow_add, ← Nat.div_div_eq_div_mul, Nat.mul_div_cancel _ (by positivity),
    Nat.mul_comm, Nat.mul_add_div (by positivity), Nat.div_eq_of_lt (Nat.mod_lt _ (by positivity)), Nat.add_zero]

/-! ### Buckets -/

variable {dex : DescriptorStrings} {n : Nat} {E E' : Entries}

def bucket (dex : DescriptorStrings) (n i : Nat) : Nat := (dex.hash i).toNat % 2 ^ n

theorem bucket_lt (dex : DescriptorStrings) (n i : Nat) : bucket dex n i < 2 ^ n := Nat.mod_lt _ (by positivity)

/-- The position after `p`, and one outside of the table after the last. -/
def link (n : Nat) (E : Entries) (p : Nat) : Nat :=
  if (E p).isLast n then 2 ^ n else (p + ((E p).getNextPosDelta n).toNat) % 2 ^ n

theorem link_of_isLast {p : Nat} (h : (E p).isLast n = true) : link n E p = 2 ^ n := if_pos h

variable {pos : UInt32}

theorem nextPos_toNat (hn : n ≤ 16) (h : (E pos.toNat).isLast n = false) :
    (nextPos n E pos).toNat = link n E pos.toNat := by
  rw [link, h, if_neg Bool.false_ne_true, nextPos, and_getMask_toNat hn, toNat_add,
    Nat.mod_mod_of_dvd _ (Nat.pow_dvd_pow 2 (by omega))]

theorem isLast_of_link {p : Nat} (h : link n E p = 2 ^ n) : (E p).isLast n = true := by
  by_contra hlast
  rw [link, if_neg hlast] at h
  exact absurd h (Nat.ne_of_lt (Nat.mod_lt _ (by positivity)))

/-- The class definitions of `done` are in the table, `i` at the position `slot i`, and each bucket is a list that
    begins at the position of its hash. -/
structure Built (dex : DescriptorStrings) (n : Nat) (E : Entries) (done : Finset Nat) (slot : Nat → Nat)
    (chain : Nat → List Nat) : Prop where
  slot_lt : ∀ i ∈ done, slot i < 2 ^ n
  slot_inj : ∀ i ∈ done, ∀ j ∈ done, slot i = slot j → i = j
  occupied : ∀ i ∈ done, (E (slot i)).isEmpty = false
  strOffset : ∀ i ∈ done, (E (slot i)).strOffset = dex.strOffset i
  packed : ∀ i ∈ done, ∃ delta, Packed n (E (slot i)).data (dex.hash i) i delta
  free : ∀ p < 2 ^ n, (∀ i ∈ done, slot i ≠ p) → (E p).isEmpty = true
  mem_chain : ∀ b i, i ∈ chain b ↔ i ∈ done ∧ bucket dex n i = b
  nodup : ∀ b, (chain b).Nodup
  linked : ∀ b, chain b ≠ [] → Linked (link n E) (2 ^ n) b ((chain b).map slot)

namespace Built

variable {done : Finset Nat} {slot : Nat → Nat} {chain : Nat → List Nat} {i r : Nat}

theorem start : Built dex n (fun _ => Entry.empty) ∅ slot fun _ => [] where
  slot_lt := by simp
  slot_inj := by simp
  occupied := by simp
  strOffset := by simp
  packed := by simp
  free := fun _ _ _ => rfl
  mem_chain := by simp
  nodup := fun _ => nodup_nil
  linked := fun _ h => absurd rfl h

variable (h : Built dex n E done slot chain)
include h

theorem slot_ne (hempty : (E r).isEmpty = true) {j : Nat} (hj : j ∈ done) : slot j ≠ r := by
  rintro rfl
  exact Bool.false_ne_true ((h.occupied j hj).symm.trans hempty)

/-- A class definition is put at the free position `r` and linked behind its bucket. -/
theorem insert (hi : i ∉ done) (hidx : i < 2 ^ n) (hoff : dex.strOffset i ≠ 0) (hn : n ≤ 16) (hr : r < 2 ^ n)
    (hempty : (E r).isEmpty = true) (hnew : E' r = newEntry dex n i)
    (hold : ∀ p ≠ r, (E' p).strOffset = (E p).strOffset)
    (hpacked : ∀ j ∈ done, ∃ delta, Packed n (E' (slot j)).data (dex.hash j) j delta)
    (hothers : ∀ j ∈ done, bucket dex n j ≠ bucket dex n i → link n E' (slot j) = link n E (slot j))
    (hlinked : Linked (link n E') (2 ^ n) (bucket dex n i) ((chain (bucket dex n i)).map slot ++ [r])) :
    Built dex n E' (Insert.insert i done) (update slot i r)
      (update chain (bucket dex n i) (chain (bucket dex n i) ++ [i])) := by
  have hslot : ∀ j ∈ done, update slot i r j = slot j := fun j hj => update_of_ne (ne_of_mem_of_not_mem hj hi) ..
  have hself : update slot i r i = r := update_self ..
  have hne : ∀ j ∈ done, slot j ≠ r := fun j => h.slot_ne hempty
  have hmap : ∀ b, (chain b).map (update slot i r) = (chain b).map slot := fun b =>
    map_congr_left fun j hj => hslot j ((h.mem_chain b j).mp hj).1
  constructor
  case slot_lt =>
    intro j hj
    obtain rfl | hj := Finset.mem_insert.mp hj
    · rwa [hself]
    · rw [hslot j hj]
      exact h.slot_lt j hj
  case slot_inj =>
    intro j hj k hk heq
    rw [Finset.mem_insert] at hj hk
    obtain rfl | hj := hj <;> obtain rfl | hk := hk
    · rfl
    · rw [hself, hslot k hk] at heq
      exact absurd heq.symm (hne k hk)
    · rw [hself, hslot j hj] at heq
      exact absurd heq (hne j hj)
    · rw [hslot j hj, hslot k hk] at heq
      exact h.slot_inj j hj k hk heq
  case occupied =>
    intro j hj
    obtain rfl | hj := Finset.mem_insert.mp hj
    · rw [hself, hnew]
      exact decide_eq_false hoff
    · rw [hslot j hj, Entry.isEmpty, hold _ (hne j hj)]
      exact h.occupied j hj
  case strOffset =>
    intro j hj
    obtain rfl | hj := Finset.mem_insert.mp hj
    · rw [hself, hnew]
      rfl
    · rw [hslot j hj, hold _ (hne j hj), h.strOffset j hj]
  case packed =>
    intro j hj
    obtain rfl | hj := Finset.mem_insert.mp hj
    · rw [hself, hnew]
      exact ⟨0, Packed.new hn _ hidx⟩
    · rw [hslot j hj]
      exact hpacked j hj
  case free =>
    intro p hp hall
    have hpr : p ≠ r := by
      rintro rfl
      exact hall i (Finset.mem_insert_self ..) hself
    rw [Entry.isEmpty, hold p hpr]
    refine h.free p hp fun j hj => ?_
    rw [← hslot j hj]
    exact hall j (Finset.mem_insert_of_mem hj)
  case mem_chain =>
    intro b j
    by_cases hb : b = bucket dex n i
    · subst hb
      rw [update_self, mem_append, mem_singleton, h.mem_chain, Finset.mem_insert]
      constructor
      · rintro (⟨hj, hb⟩ | rfl)
        · exact ⟨.inr hj, hb⟩
        · exact ⟨.inl rfl, rfl⟩
      · rintro ⟨rfl | hj, hb⟩
        · exact .inr rfl
        · exact .inl ⟨hj, hb⟩
    · rw [update_of_ne hb, h.mem_chain, Finset.mem_insert]
      constructor
      · exact fun ⟨hj, hb⟩ => ⟨.inr hj, hb⟩
      · rintro ⟨rfl | hj, hb'⟩
        · exact absurd hb'.symm hb
        · exact ⟨hj, hb'⟩
  case nodup =>
    intro b
    by_cases hb : b = bucket dex n i
    · subst hb
      rw [update_self, ← concat_eq_append]
      exact (h.nodup _).concat fun hmem => hi ((h.mem_chain _ i).mp hmem).1
    · rw [update_of_ne hb]
      exact h.nodup b
  case linked =>
    intro b hchain
    by_cases hb : b = bucket dex n i
    · subst hb
      rw [update_self, map_append, hmap, map_singleton, hself]
      exact hlinked
    rw [update_of_ne hb] at hchain ⊢
    rw [hmap]
    refine (h.linked b hchain).congr fun p hp => ?_
    obtain ⟨j, hj, rfl⟩ := mem_map.mp hp
    obtain ⟨hj, hjb⟩ := (h.mem_chain b j).mp hj
    exact hothers j hj fun heq => hb (hjb.symm.trans heq)

/-! ### Construction -/

theorem chain_eq_nil {b : Nat} (hempty : (E b).isEmpty = true) : chain b = [] := by
  by_contra hchain
  have hlinked := h.linked b hchain
  obtain ⟨j, rest, hj⟩ := exists_cons_of_ne_nil hchain
  rw [hj, map_cons] at hlinked
  have hmem := (h.mem_chain b j).mp (hj ▸ mem_cons_self)
  exact h.slot_ne hempty hmem.1 hlinked.1.symm

/-- The first stage puts a class in its empty bucket. -/
theorem firstStage (hi : i ∉ done) (hidx : i < 2 ^ n) (hoff : dex.strOffset i ≠ 0) (hn : n ≤ 16)
    (hempty : (E (bucket dex n i)).isEmpty = true) :
    Built dex n (update E (bucket dex n i) (newEntry dex n i)) (Insert.insert i done)
      (update slot i (bucket dex n i)) (update chain (bucket dex n i) [i]) := by
  have hnil := h.chain_eq_nil hempty
  have hkeep : ∀ p ≠ bucket dex n i, update E (bucket dex n i) (newEntry dex n i) p = E p := fun p hp =>
    update_of_ne hp ..
  have hslot := fun j (hj : j ∈ done) => hkeep (slot j) (h.slot_ne hempty hj)
  have hone : [i] = chain (bucket dex n i) ++ [i] := by rw [hnil, nil_append]
  rw [hone]
  refine h.insert hi hidx hoff hn (bucket_lt ..) hempty (update_self ..) (fun p hp => by rw [hkeep p hp])
    (fun j hj => by rw [hslot j hj]; exact h.packed j hj) (fun j hj _ => by rw [link, hslot j hj, link]) ?_
  rw [hnil]
  refine ⟨rfl, link_of_isLast ?_⟩
  rw [update_self]
  exact ((Packed.new hn _ hidx).isLast_iff hn).mpr rfl

end Built

theorem Linked.nextPos (hn : n ≤ 16) {p : Nat} {l : List Nat} (hlt : ∀ q ∈ l, q < 2 ^ n)
    (h : Linked (link n E) (2 ^ n) pos.toNat (p :: l)) :
    ((E pos.toNat).isLast n = true ∧ l = []) ∨
      ((E pos.toNat).isLast n = false ∧ l ≠ [] ∧ Linked (link n E) (2 ^ n) (nextPos n E pos).toNat l) := by
  obtain ⟨rfl, hrest⟩ := h
  cases l with
  | nil => exact .inl ⟨isLast_of_link hrest, rfl⟩
  | cons q l =>
    have hlast : (E pos.toNat).isLast n = false := by
      by_contra hlast
      have hend := link_of_isLast (Bool.eq_true_of_not_eq_false hlast)
      exact absurd (hrest.1.symm.trans hend) (hlt q mem_cons_self).ne
    rw [← nextPos_toNat hn hlast] at hrest
    exact .inr ⟨hlast, cons_ne_nil q l, hrest⟩

/-- The tail of a chain is found. -/
theorem findTail_eq (hn : n ≤ 16) {l : List Nat} {t : Nat} (hlt : ∀ p ∈ l ++ [t], p < 2 ^ n) {fuel : Nat}
    (hfuel : l.length < fuel) (h : Linked (link n E) (2 ^ n) pos.toNat (l ++ [t])) :
    ∃ tailPos, findTail n E fuel pos = some tailPos ∧ tailPos.toNat = t := by
  induction l generalizing fuel pos with
  | nil =>
    obtain ⟨fuel, rfl⟩ := Nat.exists_eq_add_of_lt hfuel
    obtain ⟨rfl, hend⟩ := h
    refine ⟨pos, ?_, rfl⟩
    rw [findTail, if_pos (isLast_of_link hend)]
  | cons p l ih =>
    obtain ⟨fuel, rfl⟩ := Nat.exists_eq_add_of_lt hfuel
    have hlt := fun q (hq : q ∈ l ++ [t]) => hlt q (mem_cons_of_mem _ hq)
    obtain ⟨-, hnil⟩ | ⟨hlast, -, hrest⟩ := Linked.nextPos hn hlt h
    · exact absurd hnil (by simp)
    · rw [findTail, hlast, if_neg Bool.false_ne_true]
      exact ih hlt (by rw [length_cons]; omega) hrest

/-- An empty slot is found. -/
theorem findEmpty_eq (hn : n ≤ 16) {k fuel : Nat} (hk : 0 < k) (hfuel : k ≤ fuel)
    (h : (E ((pos.toNat + k) % 2 ^ n)).isEmpty = true) :
    ∃ r, findEmpty n E fuel pos = some r ∧ r.toNat < 2 ^ n ∧ (E r.toNat).isEmpty = true := by
  induction fuel generalizing k pos with
  | zero => omega
  | succ fuel ih =>
    have hnext : ((pos + 1) &&& getMask n).toNat = (pos.toNat + 1) % 2 ^ n := by
      rw [and_getMask_toNat hn, toNat_add, Nat.mod_mod_of_dvd _ (Nat.pow_dvd_pow 2 (by omega))]
      rfl
    rw [findEmpty]
    by_cases hempty : (E ((pos + 1) &&& getMask n).toNat).isEmpty = true
    · refine ⟨_, if_pos hempty, ?_, hempty⟩
      rw [hnext]
      exact Nat.mod_lt _ (by positivity)
    have hone : k ≠ 1 := by
      rintro rfl
      exact hempty (hnext ▸ h)
    simp only [if_neg hempty]
    refine ih (k := k - 1) (by omega) (by omega) ?_
    rw [hnext, Nat.mod_add_mod, Nat.add_assoc, Nat.add_sub_cancel' hk]
    exact h

theorem delta_toNat (hn : n ≤ 16) {insertPos tailPos : UInt32} (hinsert : insertPos.toNat < 2 ^ n) :
    (tailPos.toNat + ((insertPos - tailPos) &&& getMask n).toNat) % 2 ^ n = insertPos.toNat := by
  have hdvd : 2 ^ n ∣ 2 ^ 32 := Nat.pow_dvd_pow 2 (by omega)
  have hsum : tailPos.toNat + (2 ^ 32 - tailPos.toNat + insertPos.toNat) = insertPos.toNat + 2 ^ 32 := by
    have := tailPos.toNat_lt
    omega
  rw [and_getMask_toNat hn, UInt32.toNat_sub, Nat.mod_mod_of_dvd _ hdvd, Nat.add_mod_mod, hsum,
    ← Nat.add_mod_mod, Nat.mod_eq_zero_of_dvd hdvd, Nat.add_zero, Nat.mod_eq_of_lt hinsert]

namespace Built

variable {done : Finset Nat} {slot : Nat → Nat} {chain : Nat → List Nat} {i : Nat}
variable (h : Built dex n E done slot chain)
include h

theorem exists_free (hcard : done.card < 2 ^ n) : ∃ p < 2 ^ n, (E p).isEmpty = true := by
  have himage : (done.image slot).card < (Finset.range (2 ^ n)).card := by
    rw [Finset.card_range]
    exact Nat.lt_of_le_of_lt Finset.card_image_le hcard
  obtain ⟨p, hp, hnot⟩ := Finset.exists_mem_notMem_of_card_lt_card himage
  have hp := Finset.mem_range.mp hp
  exact ⟨p, hp, h.free p hp fun j hj heq => hnot (Finset.mem_image.mpr ⟨j, hj, heq⟩)⟩

theorem chain_length_le (b : Nat) : (chain b).length ≤ 2 ^ n := by
  have hnodup : ((chain b).map slot).Nodup := (h.nodup b).map_on fun j hj k hk heq =>
    h.slot_inj j ((h.mem_chain b j).mp hj).1 k ((h.mem_chain b k).mp hk).1 heq
  rw [← length_map slot]
  refine length_le_of_nodup_of_lt hnodup fun p hp => ?_
  obtain ⟨j, hj, rfl⟩ := mem_map.mp hp
  exact h.slot_lt j ((h.mem_chain b j).mp hj).1

section

variable (hi : i ∉ done) (hidx : i < 2 ^ n) (hoff : dex.strOffset i ≠ 0) (hn : n ≤ 16)
include hi hidx hoff hn

/-- A free entry is linked behind the last one of the bucket. -/
theorem linkBehind {c : List Nat} {t r : Nat} (hct : chain (bucket dex n i) = c ++ [t]) (hr : r < 2 ^ n)
    (hempty : (E r).isEmpty = true) {d : UInt32} (hdlt : d.toNat < 2 ^ n) (hdelta : (slot t + d.toNat) % 2 ^ n = r) :
    Built dex n (update (update E r (newEntry dex n i)) (slot t) ((E (slot t)).setNextPosDelta d))
      (Insert.insert i done) (update slot i r)
      (update chain (bucket dex n i) (chain (bucket dex n i) ++ [i])) := by
  have hmem : ∀ j ∈ c ++ [t], j ∈ done ∧ bucket dex n j = bucket dex n i := fun j hj => (h.mem_chain _ j).mp (hct ▸ hj)
  have ht := hmem t (by simp)
  have hlinked := h.linked (bucket dex n i) (by simp [hct])
  rw [hct, map_append, map_singleton] at hlinked
  have hne := fun j (hj : j ∈ done) => h.slot_ne hempty hj
  -- The last entry has no delta yet.
  have hlast : Packed n (E (slot t)).data (dex.hash t) t 0 := by
    obtain ⟨delta, hpacked⟩ := h.packed t ht.1
    obtain ⟨j, -, rfl, hend⟩ := Linked.append_iff.mp hlinked
    rwa [(hpacked.isLast_iff hn).mp (isLast_of_link hend)] at hpacked
  have hset := hlast.setNextPosDelta hdlt
  obtain ⟨F, hF⟩ : ∃ F, F = update (update E r (newEntry dex n i)) (slot t) ((E (slot t)).setNextPosDelta d) := ⟨_, rfl⟩
  have hFt : F (slot t) = (E (slot t)).setNextPosDelta d := by rw [hF, update_self]
  have hFr : F r = newEntry dex n i := by rw [hF, update_of_ne (hne t ht.1).symm, update_self]
  have hFother : ∀ p, p ≠ r → p ≠ slot t → F p = E p := fun p hpr hpt => by
    rw [hF, update_of_ne hpt, update_of_ne hpr]
  have hFslot : ∀ j ∈ done, j ≠ t → F (slot j) = E (slot j) := fun j hj hjt =>
    hFother _ (hne j hj) fun heq => hjt (h.slot_inj j hj t ht.1 heq)
  rw [← hF]
  refine h.insert hi hidx hoff hn hr hempty hFr ?_ ?_ ?_ ?_
  · intro p hpr
    by_cases hpt : p = slot t
    · rw [hpt, hFt]
      rfl
    · rw [hFother p hpr hpt]
  · intro j hj
    by_cases hjt : j = t
    · rw [hjt, hFt]
      exact ⟨_, hset⟩
    · rw [hFslot j hj hjt]
      exact h.packed j hj
  · intro j hj hbucket
    have hjt : j ≠ t := by
      rintro rfl
      exact hbucket ht.2
    rw [link, hFslot j hj hjt, link]
  · rw [hct, map_append, map_singleton]
    refine hlinked.snoc (fun p hp => ?_) ?_ (link_of_isLast ?_)
    · obtain ⟨j, hj, rfl⟩ := mem_map.mp hp
      have hjt : j ≠ t := by
        have hnodup := h.nodup (bucket dex n i)
        rw [hct, nodup_append] at hnodup
        exact hnodup.2.2 j hj t (mem_singleton_self t)
      rw [link, hFslot j (hmem j (mem_append_left _ hj)).1 hjt, link]
    · have hnotLast : (F (slot t)).isLast n ≠ true := by
        rw [hFt, Ne, hset.isLast_iff hn]
        intro hzero
        rw [hzero, Nat.add_zero, Nat.mod_eq_of_lt (h.slot_lt t ht.1)] at hdelta
        exact hne t ht.1 hdelta
      rw [link, if_neg hnotLast, hFt, hset.getNextPosDelta hn, hdelta]
    · rw [hFr]
      exact ((Packed.new hn _ hidx).isLast_iff hn).mpr rfl

/-- The second stage appends a class to the chain of its bucket. -/
theorem secondStage (hcard : done.card < 2 ^ n) {fuel : Nat} (hfuel : 2 ^ n ≤ fuel)
    (hchain : chain (bucket dex n i) ≠ []) :
    ∃ E' slot', secondStage dex n fuel E i = some E' ∧ Built dex n E' (Insert.insert i done) slot'
      (update chain (bucket dex n i) (chain (bucket dex n i) ++ [i])) := by
  obtain ⟨c, t, hct⟩ : ∃ c t, chain (bucket dex n i) = c ++ [t] := ⟨_, _, (dropLast_append_getLast hchain).symm⟩
  have hmem : ∀ j ∈ c ++ [t], j ∈ done := fun j hj => ((h.mem_chain _ j).mp (hct ▸ hj)).1
  have htlt := h.slot_lt t (hmem t (by simp))
  have hlinked := h.linked _ hchain
  rw [hct, map_append, map_singleton] at hlinked
  -- The walk along the bucket.
  have hlt : ∀ p ∈ c.map slot ++ [slot t], p < 2 ^ n := by
    intro p hp
    rw [← map_singleton, ← map_append] at hp
    obtain ⟨j, hj, rfl⟩ := mem_map.mp hp
    exact h.slot_lt j (hmem j hj)
  have hlength : (c.map slot).length < fuel := by
    have := h.chain_length_le (bucket dex n i)
    rw [hct, length_append, length_singleton] at this
    rw [length_map]
    omega
  have hpos : (dex.hash i &&& getMask n).toNat = bucket dex n i := and_getMask_toNat hn _
  obtain ⟨tailPos, htail, htoNat⟩ := findTail_eq hn hlt hlength (hpos ▸ hlinked)
  -- The probing for a free entry, which comes around to the whole table.
  obtain ⟨p, hp, hempty⟩ := h.exists_free hcard
  obtain ⟨k, hk, hkfuel, hkp⟩ : ∃ k, 0 < k ∧ k ≤ fuel ∧ (tailPos.toNat + k) % 2 ^ n = p := by
    by_cases hle : p ≤ slot t
    · refine ⟨p + 2 ^ n - slot t, by omega, by omega, ?_⟩
      rw [htoNat, Nat.add_sub_cancel' (by omega), Nat.add_mod_right, Nat.mod_eq_of_lt hp]
    · refine ⟨p - slot t, by omega, by omega, ?_⟩
      rw [htoNat, Nat.add_sub_cancel' (by omega), Nat.mod_eq_of_lt hp]
  obtain ⟨r, hfind, hr, hrempty⟩ := findEmpty_eq hn hk hkfuel (hkp ▸ hempty)
  have hdlt : ((r - tailPos) &&& getMask n).toNat < 2 ^ n := by
    rw [and_getMask_toNat hn]
    exact Nat.mod_lt _ (by positivity)
  refine ⟨_, _, ?_, h.linkBehind hi hidx hoff hn hct hr hrempty hdlt (by rw [← htoNat, delta_toNat hn hr])⟩
  rw [Dex.secondStage, htail, Option.bind_eq_bind, Option.bind_some, hfind, Option.bind_some, htoNat]
  simp only [update_of_ne (h.slot_ne hrempty (hmem t (by simp))), Option.pure_def]

end

end Built

/-! ### The whole construction -/

/-- After `k` turns of the first stage the class definitions are at the positions of their hashes or wait for an
    occupied bucket. -/
structure Staged (dex : DescriptorStrings) (n k : Nat) (s : Entries × List Nat) (done : Finset Nat) (slot : Nat → Nat)
    (chain : Nat → List Nat) : Prop where
  built : Built dex n s.1 done slot chain
  slot_eq : ∀ j ∈ done, slot j = bucket dex n j
  nodup : s.2.Nodup
  lt_iff : ∀ i, i < k ↔ i ∈ done ∨ i ∈ s.2
  waiting : ∀ i ∈ s.2, i ∉ done ∧ chain (bucket dex n i) ≠ []

section create

variable (hn : n ≤ 16) {N : Nat} (hN : N ≤ 2 ^ n) (hoff : ∀ i < N, dex.strOffset i ≠ 0)
include hn hN hoff

/-- A class of the first stage is placed or left as a conflict. -/
theorem Staged.step {k : Nat} (hk : k < N) {s : Entries × List Nat} {done : Finset Nat} {slot : Nat → Nat}
    {chain : Nat → List Nat} (h : Staged dex n k s done slot chain) :
    ∃ done' slot' chain', Staged dex n (k + 1) (firstStage dex n s k) done' slot' chain' := by
  have hkdone : k ∉ done := fun hmem => absurd ((h.lt_iff k).mpr (.inl hmem)) (by omega)
  have hkwaiting : k ∉ s.2 := fun hmem => absurd ((h.lt_iff k).mpr (.inr hmem)) (by omega)
  have hpos : (dex.hash k &&& getMask n).toNat = bucket dex n k := and_getMask_toNat hn _
  by_cases hempty : (s.1 (bucket dex n k)).isEmpty = true
  · have hrun : firstStage dex n s k = (update s.1 (bucket dex n k) (newEntry dex n k), s.2) := by
      simp only [firstStage, hpos, hempty, if_true]
    rw [hrun]
    refine ⟨_, _, _, h.built.firstStage hkdone (by omega) (hoff k hk) hn hempty, ?_, h.nodup, fun i => ?_, ?_⟩
    · intro j hj
      by_cases hjk : j = k
      · rw [hjk, update_self]
      · rw [update_of_ne hjk]
        exact h.slot_eq j ((Finset.mem_insert.mp hj).resolve_left hjk)
    · rw [Finset.mem_insert, or_assoc, ← h.lt_iff i]
      omega
    · intro i hi
      have hik : i ≠ k := ne_of_mem_of_not_mem hi hkwaiting
      refine ⟨by simpa [hik] using (h.waiting i hi).1, ?_⟩
      by_cases hb : bucket dex n i = bucket dex n k
      · simp [hb]
      · rw [update_of_ne hb]
        exact (h.waiting i hi).2
  · have hrun : firstStage dex n s k = (s.1, s.2 ++ [k]) := by
      simp only [firstStage, hpos, hempty, Bool.false_eq_true, if_false]
    rw [hrun]
    refine ⟨done, slot, chain, h.built, h.slot_eq, ?_, fun i => ?_, ?_⟩
    · exact concat_eq_append ▸ h.nodup.concat hkwaiting
    · rw [mem_append, mem_singleton, ← or_assoc, ← h.lt_iff i]
      omega
    · intro i hi
      obtain hi | hi := mem_append.mp hi
      · exact h.waiting i hi
      rw [mem_singleton.mp hi]
      refine ⟨hkdone, fun hnil => hempty (h.built.free _ (bucket_lt ..) fun j hj heq => ?_)⟩
      have hjb : bucket dex n j = bucket dex n k := (h.slot_eq j hj).symm.trans heq
      exact absurd ((h.built.mem_chain _ j).mpr ⟨hj, hjb⟩) (by simp [hnil])

theorem firstStage_staged :
    ∃ done slot chain,
      Staged dex n N ((range N).foldl (firstStage dex n) (fun _ => Entry.empty, [])) done slot chain :=
  Lib.foldl_range_inv (fun k s => ∃ done slot chain, Staged dex n k s done slot chain)
    ⟨∅, id, _, Built.start, by simp, nodup_nil, by simp, by simp⟩
    fun _ hk _ ⟨_, _, _, h⟩ => h.step hn hN hoff hk

/-- The second stage places all conflicts. -/
theorem secondStage_built {fuel : Nat} (hfuel : 2 ^ n ≤ fuel) {conflicts : List Nat} {done : Finset Nat}
    {slot : Nat → Nat}
    {chain : Nat → List Nat} (h : Built dex n E done slot chain) (hnodup : conflicts.Nodup)
    (hconflict : ∀ i ∈ conflicts, i < N ∧ i ∉ done ∧ chain (bucket dex n i) ≠ [])
    (hcard : done.card + conflicts.length ≤ 2 ^ n) :
    ∃ E' slot' chain', conflicts.foldlM (secondStage dex n fuel) E = some E' ∧
      Built dex n E' (done ∪ conflicts.toFinset) slot' chain' := by
  induction conflicts generalizing E done slot chain with
  | nil => exact ⟨E, slot, chain, rfl, by simpa using h⟩
  | cons i conflicts ih =>
    rw [nodup_cons] at hnodup
    rw [length_cons] at hcard
    obtain ⟨hiN, hidone, hichain⟩ := hconflict i mem_cons_self
    obtain ⟨E₁, slot₁, hstep, hbuilt⟩ := h.secondStage hidone (by omega) (hoff i hiN) hn (by omega) hfuel hichain
    have hkeep : ∀ j ∈ conflicts, j < N ∧ j ∉ Insert.insert i done ∧ update chain (bucket dex n i)
        (chain (bucket dex n i) ++ [i]) (bucket dex n j) ≠ [] := by
      intro j hj
      obtain ⟨hjN, hjdone, hjchain⟩ := hconflict j (mem_cons_of_mem i hj)
      refine ⟨hjN, by simp [hjdone, ne_of_mem_of_not_mem hj hnodup.1], ?_⟩
      by_cases hb : bucket dex n j = bucket dex n i
      · simp [hb]
      · rwa [update_of_ne hb]
    obtain ⟨E₂, slot₂, chain₂, hrun, hbuilt₂⟩ := ih hbuilt hnodup.2 hkeep (by
      rw [Finset.card_insert_of_notMem hidone]
      omega)
    refine ⟨E₂, slot₂, chain₂, ?_, ?_⟩
    · rw [foldlM_cons, hstep]
      exact hrun
    · rwa [toFinset_cons, Finset.union_insert, ← Finset.insert_union]

end create

theorem maskBits_le {N : Nat} (hmax : N ≤ 0xffff) : calculateMaskBits N ≤ 16 := by
  unfold calculateMaskBits
  split
  · exact Nat.size_le.mpr (by omega)
  · omega

theorem le_maskBits {N : Nat} (hpos : 1 ≤ N) (hmax : N ≤ 0xffff) : N ≤ 2 ^ calculateMaskBits N := by
  have hsupported : supportedSize N = true := by simp [supportedSize, hmax]; omega
  rw [calculateMaskBits, if_pos hsupported]
  have := Nat.lt_size_self (N - 1)
  omega

/-- The table that is made has every class. -/
theorem createTypeLookupTable_built {fuel : Nat} (hpos : 1 ≤ dex.numClassDefs) (hmax : dex.numClassDefs ≤ 0xffff)
    (hoff : ∀ i < dex.numClassDefs, dex.strOffset i ≠ 0) (hfuel : 2 ^ calculateMaskBits dex.numClassDefs ≤ fuel) :
    ∃ E slot chain, createTypeLookupTable dex fuel = some ⟨calculateMaskBits dex.numClassDefs, some E⟩ ∧
      Built dex (calculateMaskBits dex.numClassDefs) E (Finset.range dex.numClassDefs) slot chain := by
  have hn := maskBits_le hmax
  have hN := le_maskBits hpos hmax
  have hsupported : supportedSize dex.numClassDefs = true := by simp [supportedSize, hmax]; omega
  obtain ⟨done, slot, chain, hstaged⟩ := firstStage_staged hn hN hoff
  obtain ⟨first, hfirst⟩ : ∃ first, first = (range dex.numClassDefs).foldl
    (firstStage dex (calculateMaskBits dex.numClassDefs)) (fun _ => Entry.empty, []) := ⟨_, rfl⟩
  rw [← hfirst] at hstaged
  -- The class definitions in the table and those that wait are all of them.
  have hunion : done ∪ first.2.toFinset = Finset.range dex.numClassDefs := by
    ext i
    rw [Finset.mem_union, mem_toFinset, Finset.mem_range, hstaged.lt_iff]
  have hdisjoint : Disjoint done first.2.toFinset :=
    Finset.disjoint_right.mpr fun i hi => (hstaged.waiting i (mem_toFinset.mp hi)).1
  have hcard : done.card + first.2.length = dex.numClassDefs := by
    rw [← toFinset_card_of_nodup hstaged.nodup, ← Finset.card_union_of_disjoint hdisjoint, hunion, Finset.card_range]
  obtain ⟨E, slot', chain', hrun, hbuilt⟩ := secondStage_built hn hN hoff hfuel hstaged.built hstaged.nodup
    (fun i hi => ⟨(hstaged.lt_iff i).mpr (.inr hi), hstaged.waiting i hi⟩) (by omega)
  rw [hunion] at hbuilt
  refine ⟨E, slot', chain', ?_, hbuilt⟩
  rw [createTypeLookupTable, hsupported, Bool.not_true, if_neg Bool.false_ne_true]
  simp only [← hfirst, hrun, Option.bind_eq_bind, Option.bind_some, Option.pure_def]

/-! ### Lookup -/

theorem xor_and_getMask {n : Nat} (hn : n ≤ 16) {a b : UInt32} (h : (a ^^^ b) &&& getMask n ≠ 0) :
    a.toNat % 2 ^ n ≠ b.toNat % 2 ^ n := by
  intro heq
  rw [← and_getMask_toNat hn, ← and_getMask_toNat hn] at heq
  refine h (toNat_inj.mp ?_)
  rw [toNat_and, UInt32.toNat_xor, Nat.and_xor_distrib_right, ← toNat_and, ← toNat_and, heq, Nat.xor_self]
  rfl

/-- The descriptor of a class definition is the string that is looked up. -/
def Matches (dex : DescriptorStrings) (str : CString) (i : Nat) : Prop :=
  modifiedUtf8StringEquals str (dex.stringAt (dex.strOffset i)) = true

/-- The outcome among the class definitions of a list. -/
def Answers (dex : DescriptorStrings) (str : CString) (l : List Nat) (r : Option UInt32) : Prop :=
  (∃ i ∈ l, Matches dex str i ∧ r = some (ofNat i)) ∨ ((∀ i ∈ l, ¬Matches dex str i) ∧ r = some kDexNoIndex)

theorem Answers.of_cons {str : CString} {i : Nat} {l : List Nat} {r : Option UInt32} (h : Answers dex str l r)
    (hi : ¬Matches dex str i) : Answers dex str (i :: l) r := by
  obtain ⟨j, hj, hmatch⟩ | ⟨hall, hr⟩ := h
  · exact .inl ⟨j, mem_cons_of_mem i hj, hmatch⟩
  · exact .inr ⟨forall_mem_cons.mpr ⟨hi, hall⟩, hr⟩

theorem Answers.of_append {str : CString} {l₁ l₂ : List Nat} {r : Option UInt32} (h : Answers dex str l₂ r)
    (hnone : ∀ i ∈ l₁, ¬Matches dex str i) : Answers dex str (l₁ ++ l₂) r := by
  induction l₁ with
  | nil => exact h
  | cons i l₁ ih =>
    rw [forall_mem_cons] at hnone
    exact (ih hnone.2).of_cons hnone.1

section lookup

variable {done : Finset Nat} {slot : Nat → Nat} {chain : Nat → List Nat} {str : CString} {hash cmp : UInt32}
variable (h : Built dex n E done slot chain) (hn : n ≤ 16) (hcmp : cmp.toNat = hashBits n hash)
variable (hsame : ∀ i ∈ done, Matches dex str i → dex.hash i = hash)
include h hn

variable {pos : UInt32}

theorem Built.entry {i : Nat} (hi : i ∈ done) (hpos : pos.toNat = slot i) :
    (E pos.toNat).strOffset = dex.strOffset i ∧ (E pos.toNat).getClassDefIdx n = ofNat i ∧
      ((E pos.toNat).getHashBits n).toNat = hashBits n (dex.hash i) := by
  obtain ⟨delta, hpacked⟩ := h.packed i hi
  rw [hpos]
  refine ⟨h.strOffset i hi, ?_, hpacked.getHashBits hn⟩
  rw [← hpacked.getClassDefIdx hn, ofNat_toNat, hpacked.getClassDefIdx hn]

omit hn in
theorem Built.map_slot_lt {l : List Nat} (hl : ∀ i ∈ l, i ∈ done) : ∀ p ∈ l.map slot, p < 2 ^ n := by
  intro p hp
  obtain ⟨i, hi, rfl⟩ := mem_map.mp hp
  exact h.slot_lt i (hl i hi)

include hcmp hsame

theorem Built.not_matches {i : Nat} (hi : i ∈ done) (hpos : pos.toNat = slot i)
    (hbits : cmp ≠ (E pos.toNat).getHashBits n) : ¬Matches dex str i := by
  intro hmatch
  refine hbits (toNat_inj.mp ?_)
  rw [hcmp, (h.entry hn hi hpos).2.2, hsame i hi hmatch]

/-- Following a chain with the string tests finds a match, if there is one. -/
theorem findString_answers {k : Nat} {l : List Nat} (hl : ∀ i ∈ k :: l, i ∈ done) (hne : l ≠ []) {fuel : Nat}
    (hfuel : l.length ≤ fuel) (hlinked : Linked (link n E) (2 ^ n) pos.toNat ((k :: l).map slot)) :
    Answers dex str l (findString dex.stringAt n E str cmp fuel pos) := by
  induction l generalizing k fuel pos with
  | nil => exact absurd rfl hne
  | cons i l ih =>
    obtain ⟨fuel, rfl⟩ : ∃ m, fuel = m + 1 := Nat.exists_eq_add_one.mpr (Nat.lt_of_lt_of_le (by simp) hfuel)
    have hl := fun j (hj : j ∈ i :: l) => hl j (mem_cons_of_mem k hj)
    have hi := hl i mem_cons_self
    obtain ⟨-, hnil⟩ | ⟨-, -, hrest⟩ := Linked.nextPos hn (h.map_slot_lt hl) hlinked
    · exact absurd hnil (by simp)
    have hpos : (nextPos n E pos).toNat = slot i := hrest.1
    obtain ⟨hstr, hidx, -⟩ := h.entry hn hi hpos
    rw [findString]
    simp only [hstr, hidx]
    split
    case isTrue hfound => exact .inl ⟨i, mem_cons_self, hfound.2, rfl⟩
    case isFalse hother =>
      have hi' : ¬Matches dex str i := fun hmatch => hother
        ⟨by_contra fun hbits => h.not_matches hn hcmp hsame hi hpos hbits hmatch, hmatch⟩
      have hlt := h.map_slot_lt fun j hj => hl j (mem_cons_of_mem i hj)
      obtain ⟨hlast, hnil⟩ | ⟨hlast, hcons, -⟩ := Linked.nextPos hn hlt hrest
      · rw [if_pos hlast, map_eq_nil_iff.mp hnil]
        exact .inr ⟨by simpa using hi', rfl⟩
      · rw [hlast, if_neg Bool.false_ne_true]
        exact (ih hl (by simpa using hcons) (Nat.le_of_succ_le_succ hfuel) hrest).of_cons hi'

/-- Following a chain by the bits of the hash skips no match. -/
theorem findHashBits_cases {l : List Nat} (hl : ∀ i ∈ l, i ∈ done) (hne : l ≠ []) {fuel : Nat} (hfuel : l.length ≤ fuel)
    (hlinked : Linked (link n E) (2 ^ n) pos.toNat (l.map slot)) :
    (findHashBits n E cmp fuel pos = some none ∧ ∀ i ∈ l, ¬Matches dex str i) ∨
      ∃ l₁ k l₂ found, l = l₁ ++ k :: l₂ ∧ (∀ i ∈ l₁, ¬Matches dex str i) ∧
        findHashBits n E cmp fuel pos = some (some found) ∧
        Linked (link n E) (2 ^ n) found.toNat ((k :: l₂).map slot) := by
  induction l generalizing fuel pos with
  | nil => exact absurd rfl hne
  | cons i l ih =>
    obtain ⟨fuel, rfl⟩ : ∃ m, fuel = m + 1 := Nat.exists_eq_add_one.mpr (Nat.lt_of_lt_of_le (by simp) hfuel)
    have hi := hl i mem_cons_self
    have hl := fun j (hj : j ∈ l) => hl j (mem_cons_of_mem i hj)
    rw [findHashBits]
    by_cases hbits : cmp = (E pos.toNat).getHashBits n
    · exact .inr ⟨[], i, l, pos, rfl, by simp, if_pos hbits, hlinked⟩
    have hi' := h.not_matches hn hcmp hsame hi hlinked.1 hbits
    rw [if_neg hbits]
    obtain ⟨hlast, hnil⟩ | ⟨hlast, hcons, hrest⟩ := Linked.nextPos hn (h.map_slot_lt hl) hlinked
    · rw [if_pos hlast, map_eq_nil_iff.mp hnil]
      exact .inl ⟨rfl, by simpa using hi'⟩
    rw [hlast, if_neg Bool.false_ne_true]
    obtain ⟨hrun, hall⟩ | ⟨l₁, k, l₂, found, rfl, hall, hrun⟩ :=
      ih hl (by simpa using hcons) (Nat.le_of_succ_le_succ hfuel) hrest
    · exact .inl ⟨hrun, forall_mem_cons.mpr ⟨hi', hall⟩⟩
    · exact .inr ⟨i :: l₁, k, l₂, found, rfl, forall_mem_cons.mpr ⟨hi', hall⟩, hrun⟩

omit hcmp hn in
/-- The entries from the position of a hash on are in one bucket, and the string is in no other place. -/
theorem Built.exists_walk {b : Nat} (hb : b = hash.toNat % 2 ^ n) (hempty : (E b).isEmpty = false) :
    ∃ l b', l ≠ [] ∧ (∀ i ∈ l, i ∈ done ∧ bucket dex n i = b') ∧ l.length ≤ 2 ^ n ∧
      Linked (link n E) (2 ^ n) b (l.map slot) ∧ ∀ i ∈ done, Matches dex str i → i ∈ l := by
  have hbucket : ∀ i ∈ done, Matches dex str i → i ∈ chain b := fun i hi hmatch =>
    (h.mem_chain b i).mpr ⟨hi, by rw [bucket, hsame i hi hmatch, hb]⟩
  by_cases hchain : chain b = []
  · -- Another bucket has taken the position.
    obtain ⟨j, hj, hslot⟩ : ∃ j ∈ done, slot j = b := by
      by_contra hnone
      push Not at hnone
      have hfree := h.free b (hb ▸ Nat.mod_lt _ (by positivity)) hnone
      exact Bool.false_ne_true (hempty.symm.trans hfree)
    have hjmem := (h.mem_chain (bucket dex n j) j).mpr ⟨hj, rfl⟩
    obtain ⟨l₁, l₂, hsplit⟩ := append_of_mem hjmem
    have hlinked := h.linked _ (ne_nil_of_mem hjmem)
    rw [hsplit, map_append] at hlinked
    obtain ⟨s, -, hrest⟩ := Linked.append_iff.mp hlinked
    have hs : s = b := hrest.1.trans hslot
    refine ⟨j :: l₂, bucket dex n j, cons_ne_nil j l₂, fun i hi => ?_, ?_, hs ▸ hrest, fun i hi hmatch => ?_⟩
    · exact (h.mem_chain _ i).mp (hsplit ▸ mem_append_right l₁ hi)
    · have := h.chain_length_le (bucket dex n j)
      rw [hsplit, length_append] at this
      omega
    · exact absurd (hbucket i hi hmatch) (by simp [hchain])
  · exact ⟨chain b, b, hchain, fun i hi => (h.mem_chain b i).mp hi, h.chain_length_le b, h.linked b hchain, hbucket⟩

omit hcmp in
/-- A lookup finds a match, if there is one. -/
theorem lookupType_answers {fuel : Nat} (hfuel : 2 ^ n ≤ fuel) :
    (∃ i ∈ done, Matches dex str i ∧ lookupType dex.stringAt n E str hash fuel = some (ofNat i)) ∨
      ((∀ i ∈ done, ¬Matches dex str i) ∧ lookupType dex.stringAt n E str hash fuel = some kDexNoIndex) := by
  have hpos : (hash &&& getMask n).toNat = hash.toNat % 2 ^ n := and_getMask_toNat hn hash
  by_cases hempty : (E (hash &&& getMask n).toNat).isEmpty = true
  · refine .inr ⟨fun i hi hmatch => ?_, ?_⟩
    · have hnil := h.chain_eq_nil hempty
      have hi := (h.mem_chain _ i).mpr ⟨hi, rfl⟩
      rw [bucket, hsame i ((h.mem_chain _ i).mp hi).1 hmatch, ← hpos, hnil] at hi
      exact absurd hi not_mem_nil
    · simp only [lookupType, hempty, if_true]
  have hempty := Bool.eq_false_of_not_eq_true hempty
  obtain ⟨l, b', hne, hl, hlength, hlinked, hall⟩ := h.exists_walk hsame hpos hempty
  -- It is enough to decide among the entries that are walked.
  suffices hanswers : Answers dex str l (lookupType dex.stringAt n E str hash fuel) by
    obtain ⟨i, hi, hmatch⟩ | ⟨hnone, hr⟩ := hanswers
    · exact .inl ⟨i, (hl i hi).1, hmatch⟩
    · exact .inr ⟨fun i hi hmatch => hnone i (hall i hi hmatch) hmatch, hr⟩
  have hdone := fun i hi => (hl i hi).1
  have hcmp := comparedHashBits_toNat hn hash
  simp only [lookupType, hempty, Bool.false_eq_true, if_false]
  obtain ⟨hrun, hnone⟩ | ⟨l₁, k, l₂, found, rfl, hnone, hrun, hrest⟩ :=
    findHashBits_cases h hn hcmp hsame hdone hne (hlength.trans hfuel) hlinked
  · rw [hrun]
    exact .inr ⟨hnone, rfl⟩
  have hk := hl k (by simp)
  have hl₂ : ∀ i ∈ k :: l₂, i ∈ done := fun i hi => hdone i (mem_append_right l₁ hi)
  obtain ⟨hstr, hidx, -⟩ := h.entry hn hk.1 hrest.1
  have hlt := h.map_slot_lt fun i hi => hl₂ i (mem_cons_of_mem k hi)
  simp only [hrun, hstr, hidx]
  refine Answers.of_append ?_ hnone
  split_ifs with hmatch hlast hbucket
  · exact .inl ⟨k, mem_cons_self, hmatch, rfl⟩
  · obtain ⟨-, hnil⟩ | ⟨hnotLast, -⟩ := Linked.nextPos hn hlt hrest
    · rw [map_eq_nil_iff.mp hnil]
      exact .inr ⟨fun i hi => mem_singleton.mp hi ▸ hmatch, rfl⟩
    · exact absurd hlast (by rw [hnotLast]; exact Bool.false_ne_true)
  · -- The low bits differ, so that this is the bucket of other descriptors.
    refine .inr ⟨fun i hi hi' => xor_and_getMask hn hbucket ?_, rfl⟩
    have hik : bucket dex n i = bucket dex n k := (hl i (mem_append_right l₁ hi)).2.trans hk.2.symm
    rw [bucket, hsame i (hl₂ i hi) hi'] at hik
    exact hik.symm
  · obtain ⟨hlast', -⟩ | ⟨-, hcons, -⟩ := Linked.nextPos hn hlt hrest
    · exact absurd hlast' hlast
    have hlength₂ : l₂.length ≤ fuel := by
      rw [length_append, length_cons] at hlength
      omega
    exact (findString_answers h hn hcmp hsame hl₂ (by simpa using hcons) hlength₂ hrest).of_cons hmatch

end lookup

/-! ### Descriptors -/

section descriptors

variable {use4ByteSequence : Bool}

theorem contents_terminated (u : List UInt16) (rest : List UInt8) :
    contents (encodeAs use4ByteSequence u ++ 0 :: rest) = contents (encodeAs use4ByteSequence u) := by
  refine encode_induction (P := fun _ bytes => contents (bytes ++ 0 :: rest) = contents bytes) ?_ (fun h ih => ?_) _ u
  · rw [nil_append, contents, contents, if_pos rfl]
  · rw [append_assoc, h.contents, h.contents, ih]

theorem modifiedUtf8StringEquals_iff (u v : List UInt16) (rest rest' : List UInt8) :
    modifiedUtf8StringEquals (encodeAs use4ByteSequence u ++ 0 :: rest) (encodeAs use4ByteSequence v ++ 0 :: rest') =
      true ↔ u = v := by
  rw [modifiedUtf8StringEquals, decide_eq_true_iff, (compare_compares _ _).zero, stringKey_eq_iff, contents_terminated,
    contents_terminated]
  exact (contents_encode_injective use4ByteSequence).eq_iff

theorem computeModifiedUtf8Hash_terminated (u : List UInt16) (rest : List UInt8) :
    computeModifiedUtf8Hash (encodeAs use4ByteSequence u ++ 0 :: rest) =
      (encodeAs use4ByteSequence u).foldl updateModifiedUtf8Hash 0 := by
  have hne : ∀ byte ∈ encodeAs use4ByteSequence u, decide (byte ≠ 0) = true := fun byte hbyte =>
    decide_eq_true (ne_of_mem_of_not_mem hbyte (encode_ne_zero u))
  rw [computeModifiedUtf8Hash, takeWhile_append_of_pos hne]
  simp

end descriptors

/-- The class definitions have pairwise distinct descriptors, all of them encoded in the same way; no string is at the
    offset of the header. -/
structure HasDescriptors (dex : DescriptorStrings) (use4ByteSequence : Bool) (descriptor : Nat → List UInt16) :
    Prop where
  strOffset_ne_zero : ∀ i < dex.numClassDefs, dex.strOffset i ≠ 0
  stringAt_eq : ∀ i < dex.numClassDefs, ∃ rest,
    dex.stringAt (dex.strOffset i) = encodeAs use4ByteSequence (descriptor i) ++ 0 :: rest
  injective : ∀ i < dex.numClassDefs, ∀ j < dex.numClassDefs, descriptor i = descriptor j → i = j

/-- Every class definition has an entry of its own with its three fields side by side, and the other entries are
    empty. -/
def Stores (dex : DescriptorStrings) (n : Nat) (E : Entries) : Prop :=
  ∃ slot : Nat → Nat,
    (∀ i < dex.numClassDefs, slot i < 2 ^ n ∧ (E (slot i)).strOffset = dex.strOffset i ∧
      (E (slot i)).getClassDefIdx n = ofNat i ∧ ((E (slot i)).getHashBits n).toNat = hashBits n (dex.hash i) ∧
      Packed n (E (slot i)).data (dex.hash i) i ((E (slot i)).getNextPosDelta n).toNat) ∧
    (∀ i < dex.numClassDefs, ∀ j < dex.numClassDefs, slot i = slot j → i = j) ∧
    ∀ p < 2 ^ n, (E p).isEmpty = false ↔ ∃ i < dex.numClassDefs, slot i = p

theorem Built.stores (hn : n ≤ 16) {slot : Nat → Nat} {chain : Nat → List Nat}
    (h : Built dex n E (Finset.range dex.numClassDefs) slot chain) : Stores dex n E := by
  have hmem := fun i (hi : i < dex.numClassDefs) => Finset.mem_range.mpr hi
  refine ⟨slot, fun i hi => ?_, fun i hi j hj => h.slot_inj i (hmem i hi) j (hmem j hj),
    fun p hp => ⟨fun hfull => ?_, ?_⟩⟩
  · obtain ⟨delta, hpacked⟩ := h.packed i (hmem i hi)
    refine ⟨h.slot_lt i (hmem i hi), h.strOffset i (hmem i hi), ?_, hpacked.getHashBits hn, ?_⟩
    · rw [← hpacked.getClassDefIdx hn, ofNat_toNat, hpacked.getClassDefIdx hn]
    · rwa [hpacked.getNextPosDelta hn]
  · by_contra hnone
    push Not at hnone
    have hfree := h.free p hp fun i hi => hnone i (Finset.mem_range.mp hi)
    exact Bool.false_ne_true (hfull.symm.trans hfree)
  · rintro ⟨i, hi, rfl⟩
    exact h.occupied i (hmem i hi)

/-- The table maps the descriptors to their class definitions and no other string to one, whether surrogate pairs are
    encoded in four bytes or in twice three. -/
theorem createTypeLookupTable_exact (dex : DescriptorStrings) (use4ByteSequence : Bool) (descriptor : Nat → List UInt16)
    (hdex : HasDescriptors dex use4ByteSequence descriptor) (hpos : 1 ≤ dex.numClassDefs)
    (hmax : dex.numClassDefs ≤ 65535) (fuel : Nat) (hfuel : 2 ^ calculateMaskBits dex.numClassDefs ≤ fuel) :
    ∃ E, createTypeLookupTable dex fuel = some ⟨calculateMaskBits dex.numClassDefs, some E⟩ ∧
      Stores dex (calculateMaskBits dex.numClassDefs) E ∧
      ∀ (s : List UInt16) (rest : List UInt8), ∃ r,
        lookupType dex.stringAt (calculateMaskBits dex.numClassDefs) E (encodeAs use4ByteSequence s ++ 0 :: rest)
          (computeModifiedUtf8Hash (encodeAs use4ByteSequence s ++ 0 :: rest)) fuel = some r ∧
        (∀ i < dex.numClassDefs, descriptor i = s → r = ofNat i) ∧
        ((∀ i < dex.numClassDefs, descriptor i ≠ s) → r = kDexNoIndex) := by
  obtain ⟨E, slot, chain, hcreate, hbuilt⟩ := createTypeLookupTable_built hpos hmax hdex.strOffset_ne_zero hfuel
  have hn := maskBits_le hmax
  refine ⟨E, hcreate, hbuilt.stores hn, fun s rest => ?_⟩
  generalize hstr : encodeAs use4ByteSequence s ++ 0 :: rest = str
  have hmatches : ∀ i < dex.numClassDefs, Matches dex str i ↔ descriptor i = s := fun i hi => by
    obtain ⟨rest', hstring⟩ := hdex.stringAt_eq i hi
    rw [Matches, hstring, ← hstr, modifiedUtf8StringEquals_iff, eq_comm]
  have hsame : ∀ i ∈ Finset.range dex.numClassDefs, Matches dex str i → dex.hash i = computeModifiedUtf8Hash str := by
    intro i hi hmatch
    have hi := Finset.mem_range.mp hi
    obtain ⟨rest', hstring⟩ := hdex.stringAt_eq i hi
    rw [DescriptorStrings.hash, hstring, (hmatches i hi).mp hmatch, ← hstr, computeModifiedUtf8Hash_terminated,
      computeModifiedUtf8Hash_terminated]
  obtain ⟨i, hi, hmatch, hr⟩ | ⟨hnone, hr⟩ := lookupType_answers hbuilt hn hsame hfuel
  · have hi := Finset.mem_range.mp hi
    have hdescriptor := (hmatches i hi).mp hmatch
    refine ⟨_, hr, fun j hj hj' => ?_, fun hall => absurd hdescriptor (hall i hi)⟩
    rw [hdex.injective j hj i hi (hj'.trans hdescriptor.symm)]
  · refine ⟨_, hr, fun j hj hj' => ?_, fun _ => rfl⟩
    exact absurd ((hmatches j hj).mpr hj') (hnone j (Finset.mem_range.mpr hj))

/-- Two classes whose hashes have the same low bit, the second one named by a surrogate pair. -/
def collidingClasses : DescriptorStrings where
  numClassDefs := 2
  getClassDef := fun i => ⟨i⟩
  getTypeId := fun i => ⟨i⟩
  getStringId := fun i => ⟨ofNat (i + 1)⟩
  stringAt := fun offset => if offset = 1 then [98, 0] else [0xed, 0xa0, 0x80, 0xed, 0xb0, 0x80, 0]

theorem collidingClasses_hasDescriptors :
    HasDescriptors collidingClasses false fun i => if i = 0 then [98] else [0xd800, 0xdc00] := by
  refine ⟨by decide, fun i hi => ⟨[], ?_⟩, by decide⟩
  obtain rfl | rfl : i = 0 ∨ i = 1 := by
    change i < 2 at hi
    omega
  · rfl
  · rfl

/-- The second one is found behind the first. -/
theorem createTypeLookupTable_colliding :
    ∃ E, createTypeLookupTable collidingClasses 2 = some ⟨1, some E⟩ ∧ Stores collidingClasses 1 E ∧
      lookupType collidingClasses.stringAt 1 E (encodeAs false [0xd800, 0xdc00] ++ [0])
        (computeModifiedUtf8Hash (encodeAs false [0xd800, 0xdc00] ++ [0])) 2 = some 1 := by
  obtain ⟨E, hcreate, hstores, hlookup⟩ := createTypeLookupTable_exact collidingClasses _ _
    collidingClasses_hasDescriptors (by decide) (by decide) 2 (by decide)
  obtain ⟨r, hr, hfound, -⟩ := hlookup [0xd800, 0xdc00] []
  rw [hfound 1 (by decide) rfl] at hr
  exact ⟨E, hcreate, hstores, hr⟩

end Art.Dex

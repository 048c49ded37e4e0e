import Art.Compiler.Reachability
import Mathlib.Data.Fintype.Card
import Mathlib.Logic.Relation

/-! The reachability information is exact. The search from a block has either followed all edges of a block that it
    discovered or taken over what was known of it, and what is known of a block that was searched before is all. -/

namespace Art
open List Function Relation

namespace BitVectorArray

variable {m : BitVectorArray} {n row col row' col' : Nat}

/-- There is room for `n` rows of whole words and at least `n` columns, and no index of a bit is truncated. -/
structure Fits (m : BitVectorArray) (n : Nat) : Prop where
  columns : n ≤ m.numColumns
  words : 32 * m.blockWords = m.numColumns
  rows : n * m.blockWords ≤ m.rawData.storageSize
  size : 32 * m.rawData.storageSize < 2 ^ 32

section Fits

variable (h : m.Fits n)
include h

theorem Fits.word_lt (hrow : row < n) {i : Nat} (hi : i < m.blockWords) :
    row * m.blockWords + i < m.rawData.storageSize := by
  have hle : (row + 1) * m.blockWords ≤ n * m.blockWords := Nat.mul_le_mul_right _ hrow
  have hrows := h.rows
  rw [Nat.succ_mul] at hle
  omega

theorem Fits.div_lt (hcol : col < m.numColumns) : col / 32 < m.blockWords := by
  have hwords := h.words
  omega

theorem Fits.bitIndex_eq (hrow : row < n) (hcol : col < m.numColumns) :
    m.bitIndex row col = 32 * (row * m.blockWords) + col ∧ m.bitIndex row col < m.rawData.bitSize := by
  have hlt := h.word_lt hrow (h.div_lt hcol)
  have hsize := h.size
  have hindex : row * m.numColumns = 32 * (row * m.blockWords) := by rw [← h.words, Nat.mul_left_comm]
  rw [bitIndex, hindex, BitVector.bitSize]
  omega

theorem Fits.isBitSet_eq (hrow : row < n) (hcol : col < m.numColumns) :
    m.isBitSet row col = (m.rawData.storage (row * m.blockWords + col / 32)).getLsbD (col % 32) := by
  obtain ⟨hindex, hlt⟩ := h.bitIndex_eq hrow hcol
  rw [isBitSet, BitVector.isBitSet, decide_eq_true hlt, Bool.true_and, hindex, Nat.mul_add_div (by decide),
    Nat.mul_add_mod]

omit h in
theorem word_inj {w i j : Nat} (hi : i < w) (hj : j < w) : row * w + i = row' * w + j ↔ row = row' ∧ i = j := by
  constructor
  · intro h
    have hrow := congrArg (· / w) h
    simp only [Nat.mul_comm _ w, Nat.mul_add_div (Nat.zero_lt_of_lt hi), Nat.div_eq_of_lt hi, Nat.div_eq_of_lt hj,
      Nat.add_zero] at hrow
    subst hrow
    exact ⟨rfl, by omega⟩
  · rintro ⟨rfl, rfl⟩
    rfl

/-- What an operation on the array that has room does. -/
structure Changes (m m' : BitVectorArray) (n : Nat) (new : Nat → Nat → Prop) : Prop where
  fits : m'.Fits n
  columns : m'.numColumns = m.numColumns
  isBitSet : ∀ row < n, ∀ col < m.numColumns, m'.isBitSet row col = true ↔ m.isBitSet row col = true ∨ new row col

/-- Only words of the storage are changed. -/
theorem Fits.changes {s : Nat → BitVec 32} {new : Nat → Nat → Prop}
    (hs : ∀ row < n, ∀ col < m.numColumns, (s (row * m.blockWords + col / 32)).getLsbD (col % 32) = true ↔
      (m.rawData.storage (row * m.blockWords + col / 32)).getLsbD (col % 32) = true ∨ new row col) :
    Changes m { m with rawData := { m.rawData with storage := s } } n new := by
  have hfits : Fits { m with rawData := { m.rawData with storage := s } } n := ⟨h.columns, h.words, h.rows, h.size⟩
  refine ⟨hfits, rfl, fun row hrow col hcol => ?_⟩
  rw [hfits.isBitSet_eq hrow hcol, h.isBitSet_eq hrow hcol]
  exact hs row hrow col hcol

theorem Fits.setBit (hrow : row < n) (hcol : col < m.numColumns) :
    ∃ m', m.setBit row col = some m' ∧ Changes m m' n fun row' col' => row' = row ∧ col' = col := by
  obtain ⟨hindex, hlt⟩ := h.bitIndex_eq hrow hcol
  have hword := h.word_lt hrow (h.div_lt hcol)
  have hdiv : m.bitIndex row col / 32 = row * m.blockWords + col / 32 := by omega
  have hmod : m.bitIndex row col % 32 = col % 32 := by omega
  rw [BitVectorArray.setBit, BitVector.setBit, BitVector.ensureSize, if_pos hlt, hdiv, hmod, if_pos hword]
  refine ⟨_, rfl, h.changes fun row' hrow' col' hcol' => ?_⟩
  by_cases hsame : row' = row ∧ col' / 32 = col / 32
  · rw [hsame.1, hsame.2, update_self, BitVec.getLsbD_or, Bool.or_eq_true, BitVec.getLsbD_twoPow]
    have hbit : col % 32 = col' % 32 ↔ col' = col := by omega
    simp [Nat.mod_lt, hbit]
  · rw [update_of_ne fun heq => hsame ((word_inj (h.div_lt hcol') (h.div_lt hcol)).mp heq)]
    have hne : ¬(row' = row ∧ col' = col) := fun heq => hsame ⟨heq.1, by rw [heq.2]⟩
    simp [hne]

/-- Joining rows sets the bits of the other row, and no others. -/
theorem Fits.unionRows {dest other : Nat} (hdest : dest < n) (hother : other < n) :
    ∃ m', m.unionRows dest other = some m' ∧
      Changes m m' n fun row col => row = dest ∧ m.isBitSet other col = true := by
  have hstart : ∀ r, r * m.numColumns / 32 = r * m.blockWords := fun r => by
    rw [← h.words, Nat.mul_left_comm, Nat.mul_div_cancel_left _ (by decide)]
  have hroom : ∀ r < n, r * m.blockWords + m.blockWords ≤ m.rawData.storageSize := fun r hr => by
    rw [← Nat.succ_mul]
    exact (Nat.mul_le_mul_right _ hr).trans h.rows
  -- the words of the row that are done have been united
  have hloop := Lib.foldl_range_inv
    (fun k s => ∀ r i, i < m.blockWords → s (r * m.blockWords + i) =
      if r = dest ∧ i < k then
        m.rawData.storage (r * m.blockWords + i) ||| m.rawData.storage (other * m.blockWords + i)
      else m.rawData.storage (r * m.blockWords + i))
    (f := fun (s : Nat → BitVec 32) i =>
      update s (dest * m.blockWords + i) (s (dest * m.blockWords + i) ||| s (other * m.blockWords + i)))
    (n := m.blockWords) (s := m.rawData.storage) (by simp) fun k hk s hs r i hi => by
      by_cases hat : r = dest ∧ i = k
      · obtain ⟨rfl, rfl⟩ := hat
        rw [update_self, hs r i hk, hs other i hk]
        simp
      · rw [update_of_ne fun heq => hat ((word_inj hi hk).mp heq), hs r i hi]
        have hlt : r = dest ∧ i < k + 1 ↔ r = dest ∧ i < k := by omega
        simp only [hlt]
  rw [BitVectorArray.unionRows]
  simp only [hstart]
  rw [if_pos ⟨hroom dest hdest, hroom other hother⟩]
  refine ⟨_, rfl, h.changes fun row _ col hcol => ?_⟩
  rw [h.isBitSet_eq hother hcol, hloop row (col / 32) (h.div_lt hcol)]
  by_cases hrow : row = dest
  · simp [hrow, h.div_lt hcol]
  · simp [hrow]

end Fits

end BitVectorArray

namespace HGraph

variable {n : Nat} {g : HGraph n} {visited : Fin n → Bool} {target a b : Fin n} {m : BitVectorArray}

/-- Nothing else is known of the blocks, and all is known of those that have been searched. -/
structure Known (g : HGraph n) (visited : Fin n → Bool) (m : BitVectorArray) : Prop where
  fits : m.Fits n
  sound : ∀ a b : Fin n, m.isBitSet a b = true → TransGen g.Edge a b
  complete : ∀ a b : Fin n, visited a = true → TransGen g.Edge a b → m.isBitSet a b = true

theorem Known.col_lt (h : Known g visited m) (b : Fin n) : (b : Nat) < m.numColumns :=
  Nat.lt_of_lt_of_le b.2 h.fits.columns

theorem Known.grow {m' : BitVectorArray} (h : Known g visited m) {new : Nat → Nat → Prop} (hm : m.Changes m' n new)
    (hnew : ∀ a b : Fin n, new a b → TransGen g.Edge a b) : Known g visited m' where
  fits := hm.fits
  sound a b hab := ((hm.isBitSet a a.2 b (h.col_lt b)).mp hab).elim (h.sound a b) (hnew a b)
  complete a b ha hab := (hm.isBitSet a a.2 b (h.col_lt b)).mpr (.inl (h.complete a b ha hab))

/-- The blocks that can still be pushed, and those on the stack. -/
def ConnectednessState.work (s : ConnectednessState n) : Nat :=
  (Finset.univ.filter fun a => s.discovered a = false).card + s.workStack.length

/-- The edges of the block have all been followed, or what can be reached from it has been taken over. -/
def Settled (g : HGraph n) (target : Fin n) (s : ConnectednessState n) (a : Fin n) : Prop :=
  (∀ b, g.Edge a b → s.reachabilityGraph.isBitSet target b = true ∧ s.discovered b = true) ∨
    ∀ b, TransGen g.Edge a b → s.reachabilityGraph.isBitSet target b = true

/-- The search from `target`, in which the edges of some blocks are being followed. -/
structure ConnectedInv (g : HGraph n) (visited : Fin n → Bool) (target : Fin n) (following : Fin n → Prop)
    (s : ConnectednessState n) : Prop extends Known g visited s.reachabilityGraph where
  start : s.discovered target = true
  found : ∀ a, s.discovered a = true → ReflTransGen g.Edge target a
  queued : ∀ a ∈ s.workStack, s.discovered a = true
  finished : ∀ a, s.discovered a = true → a ∈ s.workStack ∨ following a ∨ Settled g target s a

/-- Nothing is forgotten. -/
def ConnectednessState.Extends (target : Fin n) (s t : ConnectednessState n) : Prop :=
  (∀ b : Fin n, s.reachabilityGraph.isBitSet target b = true → t.reachabilityGraph.isBitSet target b = true) ∧
    ∀ a, s.discovered a = true → t.discovered a = true

section Search

variable {following : Fin n → Prop} {s t : ConnectednessState n} {cur succ : Fin n}

theorem Settled.mono (h : Settled g target s a) (hext : s.Extends target t) : Settled g target t a := by
  rcases h with hall | hall
  · exact .inl fun b hb => ⟨hext.1 b (hall b hb).1, hext.2 b (hall b hb).2⟩
  · exact .inr fun b hb => hext.1 b (hall b hb)

/-- Visiting a successor keeps the invariant and records it. -/
theorem ConnectedInv.visitSuccessor (h : ConnectedInv g visited target following s) (hcur : s.discovered cur = true)
    (hedge : g.Edge cur succ) :
    ∃ t, visitSuccessor target s succ = some t ∧ ConnectedInv g visited target following t ∧ s.Extends target t ∧
      t.work ≤ s.work ∧ t.reachabilityGraph.isBitSet target succ = true ∧ t.discovered succ = true := by
  obtain ⟨m, hm, hchanges⟩ := h.fits.setBit target.2 (h.col_lt succ)
  have hbits : ∀ b : Fin n, m.isBitSet target b = true ↔ _ := fun b =>
    hchanges.isBitSet target target.2 b (h.col_lt b)
  have hknown : Known g visited m := h.toKnown.grow hchanges fun a b hab => by
    obtain rfl : a = target := Fin.ext hab.1
    obtain rfl : b = succ := Fin.ext hab.2
    exact TransGen.tail' (h.found cur hcur) hedge
  have hset : m.isBitSet target succ = true := (hbits succ).mpr (.inr ⟨rfl, rfl⟩)
  simp only [HGraph.visitSuccessor, hm, Option.bind_eq_bind, Option.bind_some]
  split_ifs with hseen
  · have hext : s.Extends target { s with reachabilityGraph := m } :=
      ⟨fun b hb => (hbits b).mpr (.inl hb), fun _ ha => ha⟩
    refine ⟨_, rfl, ⟨hknown, h.start, h.found, h.queued, fun a ha => ?_⟩, hext, le_rfl, hset, hseen⟩
    exact (h.finished a ha).imp_right (Or.imp_right fun hs => hs.mono hext)
  have hdisc : ∀ a, update s.discovered succ true a = true ↔ a = succ ∨ s.discovered a = true := fun a => by
    rw [update_apply]
    split_ifs with ha <;> simp [ha]
  have hext : s.Extends target ⟨update s.discovered succ true, succ :: s.workStack, m⟩ :=
    ⟨fun b hb => (hbits b).mpr (.inl hb), fun a ha => (hdisc a).mpr (.inr ha)⟩
  refine ⟨_, rfl, ⟨hknown, hext.2 _ h.start, fun a ha => ?_, fun a ha => ?_, fun a ha => ?_⟩, hext, ?_, hset,
    update_self ..⟩
  · rcases (hdisc a).mp ha with rfl | ha
    · exact (h.found cur hcur).tail hedge
    · exact h.found a ha
  · exact (hdisc a).mpr ((mem_cons.mp ha).imp_right (h.queued a))
  · rcases (hdisc a).mp ha with rfl | ha
    · exact .inl mem_cons_self
    · exact (h.finished a ha).imp (mem_cons_of_mem _) (Or.imp_right fun hs => hs.mono hext)
  · have hless : (Finset.univ.filter fun a => update s.discovered succ true a = false) =
        (Finset.univ.filter fun a => s.discovered a = false).erase succ := by
      ext a
      have := hdisc a
      by_cases ha : a = succ <;> simp [ha]
    have hmem : succ ∈ Finset.univ.filter fun a => s.discovered a = false := by simpa using hseen
    have hpos := Finset.card_pos.mpr ⟨succ, hmem⟩
    simp only [ConnectednessState.work, hless, Finset.card_erase_of_mem hmem, length_cons]
    omega

theorem ConnectedInv.visitSuccessors (h : ConnectedInv g visited target following s) (hcur : s.discovered cur = true)
    (l : List (Fin n)) (hl : ∀ b ∈ l, g.Edge cur b) :
    ∃ t, l.foldlM (HGraph.visitSuccessor target) s = some t ∧ ConnectedInv g visited target following t ∧
      s.Extends target t ∧ t.work ≤ s.work ∧
      ∀ b ∈ l, t.reachabilityGraph.isBitSet target b = true ∧ t.discovered b = true := by
  induction l generalizing s with
  | nil => exact ⟨s, rfl, h, ⟨fun _ => id, fun _ => id⟩, le_rfl, by simp⟩
  | cons b l ih =>
    obtain ⟨u, hu, h1, hext1, hwork1, hbit, hdisc⟩ := h.visitSuccessor hcur (hl b mem_cons_self)
    obtain ⟨t, ht, h2, hext2, hwork2, hall⟩ := ih h1 (hext1.2 cur hcur) fun c hc => hl c (mem_cons_of_mem b hc)
    refine ⟨t, by rw [foldlM_cons, hu]; exact ht, h2,
      ⟨fun c hc => hext2.1 c (hext1.1 c hc), fun c hc => hext2.2 c (hext1.2 c hc)⟩, hwork2.trans hwork1, fun c hc => ?_⟩
    rcases mem_cons.mp hc with rfl | hc
    · exact ⟨hext2.1 c hbit, hext2.2 c hdisc⟩
    · exact hall c hc

variable (h : ConnectedInv g visited target (fun _ => False) s)

include h

/-- A step keeps the invariant and leaves less work, or the work is done. -/
theorem ConnectedInv.body : g.connectednessBody visited target s = some none ∨
      ∃ t, g.connectednessBody visited target s = some (some t) ∧ ConnectedInv g visited target (fun _ => False) t ∧
        t.work < s.work := by
  rw [connectednessBody]
  cases hw : s.workStack with
  | nil => exact .inl rfl
  | cons cur rest =>
    right
    have hcur : s.discovered cur = true := h.queued cur (hw ▸ mem_cons_self)
    have hwork : ({ s with workStack := rest } : ConnectednessState n).work < s.work := by
      simp [ConnectednessState.work, hw]
    have hpop : ∀ a, s.discovered a = true → a ∈ rest ∨ a = cur ∨ Settled g target s a := fun a ha => by
      rcases h.finished a ha with hmem | hno | hs
      · exact (mem_cons.mp (hw ▸ hmem)).elim (fun heq => .inr (.inl heq)) .inl
      · exact hno.elim
      · exact .inr (.inr hs)
    have hqueued : ∀ a ∈ rest, s.discovered a = true := fun a ha => h.queued a (hw ▸ mem_cons_of_mem cur ha)
    dsimp only
    split_ifs with hseen
    · -- what is known of a block that was searched before is taken over
      obtain ⟨m, hm, hchanges⟩ := h.fits.unionRows target.2 cur.2
      have hbits : ∀ b : Fin n, m.isBitSet target b = true ↔ _ := fun b =>
        hchanges.isBitSet target target.2 b (h.col_lt b)
      have hknown : Known g visited m := h.toKnown.grow hchanges fun a b hab => by
        obtain rfl : a = target := Fin.ext hab.1
        exact TransGen.trans_right (h.found cur hcur) (h.sound cur b hab.2)
      have hext : s.Extends target ⟨s.discovered, rest, m⟩ := ⟨fun b hb => (hbits b).mpr (.inl hb), fun _ ha => ha⟩
      refine ⟨_, congrArg (Option.map _) hm, ⟨hknown, h.start, h.found, hqueued, fun a ha => ?_⟩, hwork⟩
      refine (hpop a ha).imp_right fun hcase => .inr ?_
      rcases hcase with rfl | hs
      · exact .inr fun b hb => (hbits b).mpr (.inr ⟨rfl, h.complete a b hseen hb⟩)
      · exact hs.mono hext
    · have hinv : ConnectedInv g visited target (· = cur) { s with workStack := rest } :=
        ⟨h.toKnown, h.start, h.found, hqueued, hpop⟩
      obtain ⟨t, ht, hinv', -, hwork', hall⟩ := hinv.visitSuccessors hcur (g.successors cur) fun b hb => hb
      refine ⟨t, congrArg (Option.map _) ht,
        ⟨hinv'.toKnown, hinv'.start, hinv'.found, hinv'.queued, fun a ha => ?_⟩, hwork'.trans_lt hwork⟩
      refine (hinv'.finished a ha).imp_right fun hcase => .inr ?_
      rcases hcase with rfl | hs
      · exact .inl hall
      · exact hs

end Search

end HGraph
end Art

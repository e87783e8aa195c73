import Mathlib.Data.List.Chain
import Qsh.Broker.RingFollower

/-!
# The memory bound of the replay ring

What the ring keeps is bounded by its budget, in bytes and in entries.  Eviction
only takes entries from the front (`Trims`), so it keeps the newest one and it
keeps the chunks packed: a chunk that is followed by a chunk is full.
`Packed.length_le` counts the entries of packed chunks.
-/

namespace Qsh.Broker

open List

variable {m b : Nat} {es : List Entry} {r : ReplayRing} {h : History}

/-- A chunk that is followed by a chunk is full, and no chunk is over-full. -/
structure Packed (m : Nat) (es : List Entry) : Prop where
  full : es.IsChain fun a b => a.isOutput = true → b.isOutput = true → a.cost = m
  le : ∀ e ∈ es, e.isOutput = true → e.cost ≤ m

def controls (es : List Entry) : Nat :=
  es.countP fun e => !e.isOutput

namespace Packed

theorem suffix {es' : List Entry} (hp : Packed m es) (hs : es' <:+ es) : Packed m es' :=
  ⟨hp.full.suffix hs, fun e he => hp.le e (hs.subset he)⟩

theorem snoc {e : Entry} (hp : Packed m es) (hle : e.isOutput = true → e.cost ≤ m)
    (hlast : ∀ x ∈ es.getLast?, x.isOutput = true → e.isOutput = true → x.cost = m) :
    Packed m (es ++ [e]) := by
  refine ⟨isChain_append.2 ⟨hp.full, isChain_singleton e, ?_⟩, ?_⟩
  · intro x hx y hy
    cases hy
    exact hlast x hx
  · exact forall_mem_append.2 ⟨hp.le, forall_mem_singleton.2 hle⟩

theorem length_mul_le (hp : Packed m es) :
    es.length * m ≤ (es.map Entry.cost).sum +
      (2 * controls es + (es.head?.elim 0 fun e => e.isOutput.toNat)) * m := by
  induction es with
  | nil => simp
  | cons e rest ih =>
    have hrest := ih (hp.suffix (suffix_cons e rest))
    have hfull := hp.full
    simp only [controls, length_cons, map_cons, sum_cons, countP_cons,
      head?_cons, Option.elim_some, Nat.add_mul, Nat.mul_assoc] at hrest ⊢
    cases e with
    | control =>
      simp only [Entry.isOutput, Bool.toNat_false, Bool.not_false, if_true]
      cases rest with
      | nil =>
        simp
        omega
      | cons e' rest => cases e' <;> simp [Entry.isOutput] at hrest ⊢ <;> omega
    | output start data =>
      simp only [Entry.isOutput, Bool.toNat_true, Bool.not_true]
      cases rest with
      | nil => simp
      | cons e' rest =>
        have hpay := (isChain_cons_cons.1 hfull).1 rfl
        cases e' <;> simp [Entry.isOutput] at hrest hpay ⊢ <;> omega

theorem length_le (hp : Packed m es) (hm : 0 < m) {budget : Nat}
    (hcost : (es.map Entry.cost).sum ≤ budget) :
    es.length ≤ budget / m + 2 * controls es + 1 := by
  have hmul := hp.length_mul_le
  have hhead : (es.head?.elim 0 fun e => e.isOutput.toNat) ≤ 1 := by
    cases es.head? with
    | none => exact Nat.zero_le _
    | some e => exact Bool.toNat_le e.isOutput
  have hle : es.length * m ≤ budget + (2 * controls es + 1) * m :=
    le_trans hmul (Nat.add_le_add hcost (Nat.mul_le_mul_right m (by omega)))
  have hdiv := (Nat.le_div_iff_mul_le hm).2 hle
  rw [Nat.add_mul_div_right _ _ hm] at hdiv
  omega

end Packed

/-! ## The shape of a trimmed ring -/

structure RingShape (budget : Nat) (r : ReplayRing) (h : History) : Prop extends RingInv r h where
  budget_eq : r.budget = budget
  packed : Packed r.pieceMax r.entries
  within : ¬(r.budget < r.retained ∧ 1 < r.entries.length)

theorem Trims.getLast? {r' : ReplayRing} (ht : Trims r r') (hne : r.entries ≠ []) :
    r'.entries.getLast? = r.entries.getLast? := by
  obtain ⟨front, hfront⟩ := ht.suffix
  rw [← hfront, getLast?_append_of_ne_nil _ (ht.nonempty hne)]

theorem RingInv.shape (hinv : RingInv r h) (hp : Packed r.pieceMax r.entries)
    (hne : r.entries ≠ []) :
    RingShape r.budget r.evict h ∧ r.evict.entries.getLast? = r.entries.getLast? := by
  obtain ⟨hevict, htrim, hdone⟩ := evictLoop_done _ hinv le_rfl
  refine ⟨{ hevict with budget_eq := htrim.budget_eq, packed := ?_, within := hdone },
    htrim.getLast? hne⟩
  show Packed (ReplayRing.evictLoop _ r).pieceMax _
  rw [htrim.pieceMax_eq]
  exact hp.suffix htrim.suffix

theorem appendOutput_packed (hp : Packed r.pieceMax r.entries) (piece : List UInt8) :
    (r.appendOutput piece).1.budget = r.budget ∧ (r.appendOutput piece).1.pieceMax = r.pieceMax ∧
      Packed r.pieceMax (r.appendOutput piece).1.entries ∧
      ∃ start data, (r.appendOutput piece).1.entries.getLast? = some (.output start data) := by
  have hfresh (hlast : ∀ x ∈ r.entries.getLast?, x.isOutput = true → x.cost = r.pieceMax) :
      Packed r.pieceMax
        (r.entries ++ [.output r.endSeq (piece.take (min piece.length r.pieceMax))]) :=
    hp.snoc (fun _ => by simp only [Entry.cost, length_take]; omega)
      fun x hx hout _ => hlast x hx hout
  rw [ReplayRing.appendOutput]
  split
  · rename_i start data hlast
    have hle := hp.le _ (mem_of_getLast? hlast) rfl
    split
    · have hent : r.entries = r.entries.dropLast ++ [.output start data] :=
        (dropLast_append_getLast? _ hlast).symm
      have hfull := hp.full
      rw [hent] at hfull
      obtain ⟨hfront, -, hjoin⟩ := isChain_append.1 hfull
      refine ⟨rfl, rfl, Packed.snoc ⟨hfront, fun e he =>
        hp.le e ((dropLast_sublist _).subset he)⟩ ?_ ?_, _, _, getLast?_concat⟩
      · intro _
        simp only [Entry.cost, length_append, length_take]
        omega
      · exact fun x hx hout _ => hjoin x hx _ rfl hout rfl
    · rename_i hroom
      refine ⟨rfl, rfl, hfresh ?_, _, _, getLast?_concat⟩
      intro x hx _
      cases hlast.symm.trans hx
      exact le_antisymm hle (not_lt.1 hroom)
  · rename_i hlast
    refine ⟨rfl, rfl, hfresh ?_, _, _, getLast?_concat⟩
    intro x hx hout
    cases x with
    | output start data => exact absurd hx (hlast start data)
    | control => cases hout

theorem RingShape.pushRound {piece : List UInt8} (hs : RingShape b r h) (hne : piece ≠ []) :
    RingShape b (r.pushRound piece) (h.push (piece.take (r.appendOutput piece).2)) ∧
      ∃ start data, (r.pushRound piece).entries.getLast? = some (.output start data) := by
  obtain ⟨hbudget, hmax, hpacked, start, data, hlast⟩ := appendOutput_packed hs.packed piece
  obtain ⟨hshape, hkept⟩ := (hs.toRingInv.push_nonempty hne).2.shape (hmax ▸ hpacked) (by
    intro hnil
    rw [show (r.appendOutput piece).1.entries = [] from hnil] at hlast
    cases hlast)
  exact ⟨hbudget.trans hs.budget_eq ▸ hshape, start, data, hkept.trans hlast⟩

theorem RingShape.push (hs : RingShape b r h) (data : List UInt8) :
    RingShape b (r.push data) (h.push data) ∧ (data ≠ [] → ∃ start chunk,
      (r.push data).entries.getLast? = some (.output start chunk)) := by
  -- a round makes the history longer, and leaves a chunk at the end
  have hrun := pushLoop_rule (r := r) (h := h)
    (I := fun r' h' => RingShape b r' h' ∧ (h.bytes.length ≤ h'.bytes.length ∧
      (h.bytes.length < h'.bytes.length → ∃ start chunk,
        r'.entries.getLast? = some (.output start chunk))))
    (fun {r' h' piece} hI hne => by
      obtain ⟨hshape, hlast⟩ := hI.1.pushRound hne
      have hlong := (History.le_push h' (piece.take (r'.appendOutput piece).2)).length_le
      exact ⟨(hI.1.toRingInv.push_nonempty hne).1, hshape, le_trans hI.2.1 hlong,
        fun _ => hlast⟩)
    _ ⟨hs, le_rfl, fun hlt => absurd hlt (lt_irrefl _)⟩ (Nat.le_refl data.length)
  refine ⟨hrun.1, fun hne => hrun.2.2 ?_⟩
  have := length_pos_iff.2 hne
  rw [History.push, length_append]
  omega

theorem RingShape.pushControl (hs : RingShape b r h) (event : ControlEvent) :
    RingShape b (r.pushControl event) (h.pushControl event) ∧
      (r.pushControl event).entries.getLast? =
        some (.control h.bytes.length (h.ctls.length + 1) event) := by
  have hpacked :=
    hs.packed.snoc (e := .control r.endSeq r.nextCtlId event) nofun
    nofun
  obtain ⟨hshape, hlast⟩ := (hs.toRingInv.appendControl event).shape hpacked (by simp)
  refine ⟨hs.budget_eq ▸ hshape, hlast.trans ?_⟩
  rw [getLast?_concat, hs.endSeq_eq, hs.nextCtlId_eq]

def ReplayRing.after (budget : Nat) (ops : List RingOp) : ReplayRing :=
  ops.foldl ReplayRing.apply (.new budget)

def History.after (ops : List RingOp) : History :=
  ops.foldl History.apply .empty

theorem RingShape.after (budget : Nat) (ops : List RingOp) :
    RingShape (max budget 1) (.after budget ops) (.after ops) := by
  induction ops using List.reverseRecOn with
  | nil =>
    exact { RingInv.new budget with
      budget_eq := rfl
      packed := ⟨.nil, by simp [ReplayRing.after, ReplayRing.new]⟩
      within := by simp [ReplayRing.after, ReplayRing.new] }
  | append_singleton ops op ih =>
    rw [ReplayRing.after, History.after, foldl_concat, foldl_concat]
    cases op with
    | push data => exact (ih.push data).1
    | pushControl event => exact (ih.pushControl event).1
    | read _ => exact ih

/-- The memory bound and the shape of a ring after any operations.  The entries
are the history between the oldest retained offset and its end, and what is
pushed next is not evicted by its own push. -/
theorem ring_bounded (budget : Nat) (ops : List RingOp) :
    let r := ReplayRing.after budget ops
    let h := History.after ops
    r.budget = max budget 1 ∧ r.retained = (r.entries.map Entry.cost).sum ∧
    r.retained ≤ max r.budget (r.entries.getLast?.elim 0 Entry.cost) ∧
    (∃ c, Laid h r.availableFrom c r.entries h.bytes.length h.ctls.length) ∧
    r.entries.length ≤ r.budget / r.pieceMax + 2 * controls r.entries + 1 ∧
    (∀ event, (r.pushControl event).entries.getLast? =
      some (.control h.bytes.length (h.ctls.length + 1) event)) ∧
    ∀ data, data ≠ [] → ∃ start chunk,
      (r.push data).entries.getLast? = some (.output start chunk) := by
  intro r h
  have hs : RingShape (max budget 1) r h := RingShape.after budget ops
  have hsum := hs.retained_eq
  -- over budget, only the newest entry is left
  have hone (hover : ¬r.retained ≤ r.budget) : r.entries.length ≤ 1 := by
    have := hs.within
    omega
  refine ⟨hs.budget_eq, hsum, ?_, hs.laid.imp fun _ hl => hl.1, ?_,
    fun event => (hs.pushControl event).2, fun data => (hs.push data).2⟩
  · by_cases hle : r.retained ≤ r.budget
    · omega
    have hlen := hone hle
    rw [hsum]
    generalize r.entries = es at hlen ⊢
    match es, hlen with
    | [], _ => exact Nat.zero_le _
    | [e], _ => exact le_max_right _ _
  · by_cases hle : r.retained ≤ r.budget
    · exact hs.packed.length_le hs.pieceMax_pos (hsum ▸ hle)
    · exact le_trans (hone hle) (Nat.le_add_left _ _)

end Qsh.Broker

import Qsh.Lib.Update
import Qsh.Broker.InputAdmission
import Qsh.Session.InputPath

/-!
# What the child is given

`input_exactly_once` says that the child's input queue is given a prefix of what
the user typed.  It needs that the lease and the axis that was seeded last go
together whenever a chunk brings new bytes.  They do not between the seed of an
axis and the opening of its stream (`late_chunk_is_given_twice`).

`TokenInv` is about the credential: whoever gets to seed an axis has read the axis
that was seeded before.  `DataInv` is about the bytes: every chunk carries the
typed bytes that its number names, and the child has everything up to the offset
of the axis that was seeded last.
-/

namespace Qsh.Session

open Qsh.Lib Qsh.Broker Qsh.Client List Function Option

variable {Sid Peer Hash : Type}

/-! ## Conditions -/

structure Brought where
  leg : Nat
  axis : Nat
  chunk : InputChunk
  deriving DecidableEq, Repr

namespace InputPath

def brings (s : InputPath Sid Peer Hash) : InputPathOp → Option Brought
  | .deliver k _ =>
      match (s.legs k).stage, (s.legs k).wire[(s.legs k).taken]? with
      | .seeded _ axis _, some c => some ⟨k, axis, c⟩
      | _, _ => none
  | .copy k i _ =>
      match (s.legs k).stage, (s.legs k).wire[i]? with
      | .seeded _ axis _, some c => some ⟨k, axis, c⟩
      | _, _ => none
  | _ => none

def seeds (s : InputPath Sid Peer Hash) : InputPathOp → Option (Nat × Nat)
  | .seed k =>
      match (s.legs k).stage with
      | .rotated _ lineage axis => some (lineage, axis)
      | _ => none
  | _ => none

/-- No axis is pruned: neither by a seed nor by a chunk that is refused. -/
def AxesKept (s : InputPath Sid Peer Hash) (op : InputPathOp) : Prop :=
  (∀ x ∈ s.seeds op,
    (s.session.appliedInput.insert x.2 (s.session.applied x.1)).size ≤ MAX_INPUT_AXES) ∧
  ∀ b ∈ s.brings op, s.session.admission b.leg ≠ none →
    (s.session.appliedInput.insert b.axis (max (s.session.applied b.axis) b.chunk.seq)).size ≤
      MAX_INPUT_AXES

/-- A chunk with new bytes is on the axis that was seeded last if and only if
its leg holds the lease. -/
def LeaseAtTip (s : InputPath Sid Peer Hash) (op : InputPathOp) : Prop :=
  ∀ b ∈ s.brings op, s.session.applied b.axis < b.chunk.seq →
    (s.session.admission b.leg = none ↔ b.axis = s.tip)

def FreshTokens (hash : List UInt8 → Hash) (s : InputPath Sid Peer Hash) :
    InputPathOp → Prop
  | .rotate _ _ _ minted => ∀ t ∈ s.issued, hash t ≠ hash minted
  | _ => True

instance [DecidableEq Hash] (hash : List UInt8 → Hash) (s : InputPath Sid Peer Hash)
    (op : InputPathOp) : Decidable (s.FreshTokens hash op) := by
  unfold FreshTokens
  split <;> infer_instance

instance (s : InputPath Sid Peer Hash) (op : InputPathOp) : Decidable (s.AxesKept op) := by
  unfold AxesKept
  infer_instance

instance (s : InputPath Sid Peer Hash) (op : InputPathOp) : Decidable (s.LeaseAtTip op) := by
  unfold LeaseAtTip
  infer_instance

end InputPath

/-! ## The credential -/

def LegStage.knows : LegStage → Option (List UInt8)
  | .unused => none
  | .requested token => some token
  | .verified token _ => some token
  | .reserved token _ _ => some token
  | .rotated _ _ _ => none
  | .seeded minted _ _ => some minted
  | .failed => none

def LegStage.read : LegStage → Option (List UInt8 × Nat)
  | .verified token lineage => some (token, lineage)
  | .reserved token lineage _ => some (token, lineage)
  | _ => none

theorem LegStage.knows_of_read {x : LegStage} {t : List UInt8} {l : Nat}
    (h : x.read = some (t, l)) : x.knows = some t := by
  cases x with
  | verified | reserved =>
    cases h
    rfl
  | _ => nomatch h

/-- What every step keeps about the credential.  A token that was just minted is
known to its handler only, and until its axis is seeded nobody can get past
`verify`. -/
structure TokenInv (hash : List UInt8 → Hash) (stage : Nat → LegStage)
    (issued : List (List UInt8)) (entry : Option (Resume.Entry Peer Hash)) (tip : Nat)
    (held : List UInt8) : Prop where
  heldIssued : held ∈ issued
  knownIssued : ∀ k t, (stage k).knows = some t → t ∈ issued
  distinct : ∀ t ∈ issued, ∀ t' ∈ issued, hash t = hash t' → t = t'
  stored : ∀ e ∈ entry, ∃ t, issued.head? = some t ∧ e.hash = hash t
  minted : ∀ k t l a, stage k = .rotated t l a →
    issued.head? = some t ∧ l = tip ∧ ∀ e ∈ entry, e.inputStream = a
  secret : ∀ k t l a, stage k = .rotated t l a → held ≠ t ∧ ∀ j, (stage j).knows ≠ some t
  once : ∀ k t l a, stage k = .rotated t l a → ∀ j t' l' a', stage j = .rotated t' l' a' → j = k
  current : ∀ t, issued.head? = some t → held = t ∨ (∃ k, (stage k).knows = some t) →
    ∀ e ∈ entry, e.inputStream = tip
  read : ∀ k t l, (stage k).read = some (t, l) → issued.head? = some t → l = tip

namespace TokenInv

variable {hash : List UInt8 → Hash} {stage : Nat → LegStage} {issued : List (List UInt8)}
  {entry : Option (Resume.Entry Peer Hash)} {tip : Nat} {held : List UInt8}

section

variable (hs : TokenInv hash stage issued entry tip held)
include hs

variable {k l a : Nat}

theorem move {x : LegStage} (hk : ∀ t, x.knows = some t → t = held ∨ (stage k).knows = some t)
    (hr : ∀ t l, x.read = some (t, l) → issued.head? = some t → l = tip)
    (hx : ∀ t l a, x ≠ .rotated t l a) :
    TokenInv hash (update stage k x) issued entry tip held := by
  have hknows : ∀ j t, (update stage k x j).knows = some t →
      t = held ∨ ∃ i, (stage i).knows = some t := by
    intro j t h
    rcases update_pred (P := fun x : LegStage => x.knows = some t) h with ⟨-, h⟩ | ⟨-, h⟩
    · exact (hk t h).imp id fun h => ⟨k, h⟩
    · exact .inr ⟨j, h⟩
  have hrot : ∀ j t l a, update stage k x j = .rotated t l a → stage j = .rotated t l a := by
    intro j t l a h
    rcases update_cases h with ⟨-, h⟩ | ⟨-, h⟩
    · exact absurd h (hx t l a)
    · exact h
  refine ⟨hs.heldIssued, ?_, hs.distinct, hs.stored, ?_, ?_, ?_, ?_, ?_⟩
  · intro j t h
    rcases hknows j t h with rfl | ⟨i, h⟩
    · exact hs.heldIssued
    · exact hs.knownIssued i t h
  · exact fun j t l a h => hs.minted j t l a (hrot j t l a h)
  · intro j t l a h
    obtain ⟨hheld, hnone⟩ := hs.secret j t l a (hrot j t l a h)
    refine ⟨hheld, fun i hi => ?_⟩
    rcases hknows i t hi with h | ⟨i, h⟩
    · exact hheld h.symm
    · exact hnone i h
  · exact fun j t l a h i t' l' a' hi =>
      hs.once j t l a (hrot j t l a h) i t' l' a' (hrot i t' l' a' hi)
  · intro t ht h
    refine hs.current t ht ?_
    rcases h with h | ⟨j, h⟩
    · exact .inl h
    · exact (hknows j t h).imp Eq.symm id
  · intro j t l h
    rcases update_pred (P := fun x : LegStage => x.read = some (t, l)) h with ⟨-, h⟩ | ⟨-, h⟩
    · exact hr t l h
    · exact hs.read j t l h

variable {t : List UInt8} {e : Resume.Entry Peer Hash}

theorem newest_of_redeemed (hk : (stage k).knows = some t)
    (he : e ∈ entry) (hhash : e.hash = hash t) : issued.head? = some t := by
  obtain ⟨t', ht', hhash'⟩ := hs.stored e he
  have heq : t = t' := hs.distinct t (hs.knownIssued k t hk) t' (mem_of_mem_head? ht')
    (hhash.symm.trans hhash')
  rw [heq]
  exact ht'

theorem rotate {minted : List UInt8} (hk : stage k = .reserved t l a)
    (hnewest : issued.head? = some t) (hfresh : ∀ t ∈ issued, hash t ≠ hash minted)
    (hhash : e.hash = hash minted) (haxis : e.inputStream = a) :
    TokenInv hash (update stage k (.rotated minted l a)) (minted :: issued) (some e) tip held := by
  have hknown : (stage k).knows = some t := by rw [hk]; rfl
  have hnew : minted ∉ issued := fun h => hfresh minted h rfl
  have hrot : ∀ j t' l' a', update stage k (.rotated minted l a) j =
      .rotated t' l' a' → j = k ∧ t' = minted ∧ l' = l ∧ a' = a := by
    intro j t' l' a' h
    rcases update_cases h with ⟨hj, ⟨⟩⟩ | ⟨-, h⟩
    · exact ⟨hj, rfl, rfl, rfl⟩
    -- nobody else is between a rotation and a seed
    have hhead := (hs.minted j t' l' a' h).1
    obtain rfl : t = t' := some.inj (hnewest.symm.trans hhead)
    exact absurd hknown ((hs.secret j t l' a' h).2 k)
  have hknows : ∀ j t', (update stage k (.rotated minted l a) j).knows = some t' → t' ∈ issued := by
    intro j t' h
    rcases update_pred (P := fun x : LegStage => x.knows = some t') h with ⟨-, ⟨⟩⟩ | ⟨-, h⟩
    exact hs.knownIssued j t' h
  refine ⟨mem_cons_of_mem _ hs.heldIssued,
    fun j t' h => mem_cons_of_mem _ (hknows j t' h), ?_, ?_, ?_, ?_, ?_, ?_, ?_⟩
  · intro t₁ h₁ t₂ h₂ heq
    rcases mem_cons.1 h₁ with rfl | h₁' <;> rcases mem_cons.1 h₂ with rfl | h₂'
    · rfl
    · exact absurd heq.symm (hfresh t₂ h₂')
    · exact absurd heq (hfresh t₁ h₁')
    · exact hs.distinct t₁ h₁' t₂ h₂' heq
  · intro e' he'
    cases he'
    exact ⟨minted, rfl, hhash⟩
  · intro j t' l' a' h
    obtain ⟨-, rfl, rfl, rfl⟩ := hrot j t' l' a' h
    refine ⟨rfl, hs.read k t l' (by rw [hk]; rfl) hnewest, fun e' he' => ?_⟩
    cases he'
    exact haxis
  · intro j t' l' a' h
    obtain ⟨-, rfl, -, -⟩ := hrot j t' l' a' h
    refine ⟨?_, fun i hi => hnew (hknows i _ hi)⟩
    rintro rfl
    exact hnew hs.heldIssued
  · exact fun j t' l' a' h i t'' l'' a'' hi =>
      (hrot i t'' l'' a'' hi).1.trans (hrot j t' l' a' h).1.symm
  · intro t' ht' h
    cases ht'
    rcases h with rfl | ⟨j, h⟩
    · exact absurd hs.heldIssued hnew
    · exact absurd (hknows j _ h) hnew
  · intro j t' l' h ht'
    cases ht'
    exact absurd (hknows j _ (LegStage.knows_of_read h)) hnew

theorem seed {from_ : Nat} (hk : stage k = .rotated t l a) :
    TokenInv hash (update stage k (.seeded t a from_)) issued entry a held := by
  obtain ⟨hnewest, -, haxis⟩ := hs.minted k t l a hk
  obtain ⟨-, hsecret⟩ := hs.secret k t l a hk
  have hrot : ∀ j t' l' a', update stage k (.seeded t a from_) j ≠ .rotated t' l' a' := by
    intro j t' l' a' h
    obtain ⟨-, ⟨⟩⟩ | ⟨hj, h⟩ := update_cases h
    exact hj (hs.once k t l a hk j t' l' a' h)
  refine ⟨hs.heldIssued, ?_, hs.distinct, hs.stored,
    fun j t' l' a' h => absurd h (hrot j t' l' a'),
    fun j t' l' a' h => absurd h (hrot j t' l' a'),
    fun j t' l' a' h => absurd h (hrot j t' l' a'), fun _ _ _ => haxis, ?_⟩
  · intro j t' h
    rcases update_pred (P := fun x : LegStage => x.knows = some t') h with ⟨-, h⟩ | ⟨-, h⟩
    · cases h
      exact mem_of_mem_head? hnewest
    · exact hs.knownIssued j t' h
  · intro j t' l' h ht'
    obtain rfl : t = t' := some.inj (hnewest.symm.trans ht')
    rcases update_pred (P := fun x : LegStage => x.read = some (t, l')) h with ⟨-, ⟨⟩⟩ | ⟨-, h⟩
    exact absurd (LegStage.knows_of_read h) (hsecret j)

theorem learn (hk : (stage k).knows = some t) : TokenInv hash stage issued entry tip t :=
  { hs with
    heldIssued := hs.knownIssued k t hk
    secret := by
      intro j t' l a h
      obtain ⟨-, hnone⟩ := hs.secret j t' l a h
      refine ⟨?_, hnone⟩
      rintro rfl
      exact hnone k hk
    current := by
      intro t' ht' h
      refine hs.current t' ht' (.inr ?_)
      rcases h with rfl | h
      · exact ⟨k, hk⟩
      · exact h }

end

end TokenInv

/-! ## The bytes -/

namespace InputPath

/-- The child has what was typed, up to the applied offset. -/
structure DataInv (s : InputPath Sid Peer Hash) : Prop where
  bound : s.session.applied s.tip ≤ s.typed.length
  child : s.child = s.typed.take (s.session.applied s.tip)
  pending : s.pending.Holds s.typed
  wire : ∀ k, ∀ c ∈ (s.legs k).wire, c.Of s.typed
  start : ∀ k t a f, (s.legs k).stage = .seeded t a f → f ≤ s.typed.length
  current : ∀ k, s.current = some k → (s.legs k).inputSeq = s.typed.length

theorem legs_setLeg (s : InputPath Sid Peer Hash) (k j : Nat) (leg : InputLeg) :
    (s.setLeg k leg).legs j = if j = k then leg else s.legs j := by
  obtain rfl | hj := eq_or_ne j k
  · simp [setLeg]
  · simp [setLeg, hj]

namespace DataInv

variable {s : InputPath Sid Peer Hash}

theorem init [DecidableEq Sid] (o : Owner Sid Peer Hash) (ttl : Nat)
    (token : List UInt8) : DataInv (new o ttl token) where
  bound := by
    show (Meta.new 0).applied FIRST_INPUT_STREAM ≤ 0
    decide
  child := rfl
  pending := .new
  wire := by
    intro k c hc
    simp only [new] at hc
    split at hc <;> nomatch hc
  start := by
    intro k t a f h
    simp only [new] at h
    split at h <;> cases h
    exact le_rfl
  current := by
    intro k h
    cases h
    rfl

section

variable (hs : DataInv s)
include hs

variable {k : Nat} {leg : InputLeg}

theorem setLeg (hwire : ∀ c ∈ leg.wire, c.Of s.typed)
    (hseq : s.current = some k → leg.inputSeq = s.typed.length)
    (hstart : ∀ t a f, leg.stage = .seeded t a f → f ≤ s.typed.length) :
    DataInv (s.setLeg k leg) :=
  { hs with
    wire := by
      intro j c hc
      rw [legs_setLeg] at hc
      split at hc
      · exact hwire c hc
      · exact hs.wire j c hc
    start := by
      intro j t a f h
      rw [legs_setLeg] at h
      split at h
      · exact hstart t a f h
      · exact hs.start j t a f h
    current := by
      intro j hj
      rw [legs_setLeg]
      split
      · rename_i hjk
        exact hseq (hjk ▸ hj)
      · exact hs.current j hj }

theorem setStage (hwire : leg.wire = (s.legs k).wire) (hseq : leg.inputSeq = (s.legs k).inputSeq)
    (hstart : ∀ t a f, leg.stage = .seeded t a f → f ≤ s.typed.length) :
    DataInv (s.setLeg k leg) :=
  hs.setLeg (hwire ▸ hs.wire k) (fun hk => hseq.trans (hs.current k hk)) hstart

variable {q : PendingInput}

theorem type {n : Nat} {data : List UInt8}
    (hk : s.current = some k) (hpush : s.pending.push data = .ok (q, n)) :
    DataInv { s.setLeg k ((s.legs k).sendInput data) with
      typed := s.typed ++ data
      pending := q } where
  bound := by
    have := hs.bound
    simp only [InputPath.setLeg, length_append]
    omega
  child := hs.child.trans (take_append_of_le_length hs.bound).symm
  pending := hs.pending.push hpush
  wire := by
    intro j c hc
    rw [legs_setLeg] at hc
    split at hc
    · rcases mem_append.1 hc with hc | hc
      · exact (hs.wire k c hc).append data
      have htail : data = slice (s.typed ++ data) s.typed.length (s.typed ++ data).length := by
        rw [length_append, slice_append_right]
      rw [hs.current k hk, htail] at hc
      exact inputChunks_of _ _ (by simp) c hc
    · exact (hs.wire j c hc).append data
  start := by
    intro j t a f h
    have hle : f ≤ s.typed.length := by
      rw [legs_setLeg] at h
      split at h
      · exact hs.start k t a f h
      · exact hs.start j t a f h
    simp only [length_append]
    omega
  current := by
    intro j hj
    obtain rfl : k = j := some.inj (hk.symm.trans hj)
    rw [legs_setLeg, if_pos rfl]
    simp [InputLeg.sendInput, hs.current k hk]

theorem resume {f : Nat} {tail : List UInt8}
    (hf : f ≤ s.typed.length) (hrebase : s.pending.rebase f = .ok (q, tail)) :
    DataInv { s.setLeg k ({ s.legs k with inputSeq := f }.sendInput tail) with
      pending := q
      dialing := none
      current := some k } := by
  obtain ⟨hq, rfl⟩ := hs.pending.rebase hf hrebase
  exact
    { bound := hs.bound
      child := hs.child
      pending := hq
      wire := by
        intro j c hc
        rw [legs_setLeg] at hc
        split at hc
        · rcases mem_append.1 hc with hc | hc
          · exact hs.wire k c hc
          · exact inputChunks_of _ _ hf c hc
        · exact hs.wire j c hc
      start := by
        intro j t a g h
        rw [legs_setLeg] at h
        split at h
        · exact hs.start k t a g h
        · exact hs.start j t a g h
      current := by
        intro j hj
        cases hj
        rw [legs_setLeg, if_pos rfl]
        simp only [InputLeg.sendInput, length_slice (Nat.le_refl s.typed.length)]
        show f + (s.typed.length - f) = s.typed.length
        omega }

/-- The actor takes a chunk.  New bytes are given to the child on the axis that
was seeded last, and refused on any other. -/
theorem write {axis : Nat} {c : InputChunk} {send : SendOutcome} (hc : c.Of s.typed)
    (hkept : s.session.admission k ≠ none →
      (s.session.appliedInput.insert axis (max (s.session.applied axis) c.seq)).size ≤
        MAX_INPUT_AXES)
    (htip : s.session.applied axis < c.seq → (s.session.admission k = none ↔ axis = s.tip)) :
    DataInv (s.write k axis c send).1 := by
  rcases enqueueWrite_cases s.session k c.data (some (axis, c.seq)) send with
    ⟨err, hadm, h⟩ | ⟨hadm, ⟨reply, hreply, h⟩ | ⟨hnone, -⟩ | ⟨stream, seq, hsome, -, hle, hlt, h⟩⟩
  · -- refused: the offset of the last axis stays
    have hsize := hkept (by rw [hadm]; exact some_ne_none err)
    have happlied : (s.session.refuse (some (axis, c.seq))).applied s.tip =
        s.session.applied s.tip := by
      rw [Meta.applied_of_insert (pruneInputAxes_eq_self hsize) s.tip]
      split
      · rename_i heq
        subst heq
        have hold : ¬s.session.applied s.tip < c.seq := fun hnew => by
          have := (htip hnew).2 rfl
          rw [hadm] at this
          nomatch this
        omega
      · rfl
    unfold InputPath.write
    rw [h]
    exact
      { hs with
        bound := happlied.symm ▸ hs.bound
        child := by
          show s.child ++ [] = s.typed.take ((s.session.refuse _).applied s.tip)
          rw [happlied, append_nil, hs.child] }
  · have hbytes : queuedBytes reply = [] := by
      cases reply with
      | queued d n => exact absurd rfl (hreply d n)
      | _ => rfl
    unfold InputPath.write
    rw [h]
    exact
      { hs with
        child := by
          show s.child ++ queuedBytes reply = _
          rw [hbytes, append_nil, hs.child] }
  · nomatch hnone
  · cases hsome
    obtain rfl : axis = s.tip := (htip hlt).1 hadm
    have happlied : { s.session with
        appliedInput := s.session.appliedInput.insert s.tip c.seq }.applied s.tip = c.seq :=
      (Meta.applied_of_insert rfl s.tip).trans (if_pos rfl)
    unfold InputPath.write
    rw [h]
    exact
      { hs with
        bound := happlied.symm ▸ hc.bound
        child := by
          show s.child ++ c.data.drop (s.session.applied s.tip - (c.seq - c.data.length)) =
            s.typed.take (Meta.applied _ s.tip)
          have hstart : c.seq - c.data.length +
              (s.session.applied s.tip - (c.seq - c.data.length)) = s.session.applied s.tip := by
            omega
          have hdrop : c.data.drop (s.session.applied s.tip - (c.seq - c.data.length)) =
              slice s.typed (s.session.applied s.tip) c.seq := by
            rw [← hstart, ← drop_slice, ← hc.data, hstart]
          rw [happlied, hs.child, hdrop, ← slice_zero, ← slice_zero,
            slice_append_slice (Nat.zero_le _) (by omega)] }

end

end DataInv

/-! ## Steps -/

def stages (s : InputPath Sid Peer Hash) : Nat → LegStage :=
  fun k => (s.legs k).stage

theorem stages_setLeg (s : InputPath Sid Peer Hash) (k : Nat) (leg : InputLeg) :
    (s.setLeg k leg).stages = update s.stages k leg.stage := by
  funext j
  unfold stages
  rw [legs_setLeg]
  obtain rfl | hj := eq_or_ne j k
  · simp
  · simp [hj]

section

variable [DecidableEq Sid] [DecidableEq Peer] [DecidableEq Hash] {o : Owner Sid Peer Hash}
  {s s' : InputPath Sid Peer Hash} {k : Nat}

theorem step_verify {now : Nat} (h : s.step o (.verify k now) = some s') :
    ∃ token, (s.legs k).stage = .requested token ∧
      (s' = s.setLeg k { s.legs k with stage := .failed } ∨
        ∃ e, s.resume o.id = some e ∧
          s' = s.setLeg k { s.legs k with stage := .verified token e.inputStream }) := by
  simp only [InputPath.step] at h
  split at h
  swap
  · nomatch h
  rename_i token hk
  refine ⟨token, hk, ?_⟩
  split at h <;> cases h
  · rename_i lineage hverify
    obtain ⟨e, hredeems, rfl⟩ := map_eq_some_iff.1 hverify
    exact .inr ⟨e, (Resume.Registry.redeems_eq_some hredeems).1, rfl⟩
  · exact .inl rfl

theorem step_rotate {ttl now : Nat} {minted : List UInt8}
    (h : s.step o (.rotate k ttl now minted) = some s') :
    ∃ token lineage axis, (s.legs k).stage = .reserved token lineage axis ∧
      (s' = s.setLeg k { s.legs k with stage := .failed } ∨
        ∃ e, s.resume o.id = some e ∧ e.hash = o.hash token ∧
          s' = { s.setLeg k { s.legs k with stage := .rotated minted lineage axis } with
            resume := update s.resume o.id (some ⟨o.hash minted, o.peer, now + ttl, axis⟩)
            issued := minted :: s.issued }) := by
  simp only [InputPath.step] at h
  split at h
  swap
  · nomatch h
  rename_i token lineage axis hk
  refine ⟨token, lineage, axis, hk, ?_⟩
  unfold Resume.Registry.rotate at h
  cases hr : s.resume.redeems o.id (o.hash token) o.peer now with simp only [hr, some.injEq] at h
  | none => exact .inl h.symm
  | some e =>
    obtain ⟨he, hhash, -, -⟩ := Resume.Registry.redeems_eq_some hr
    exact .inr ⟨e, he, hhash, h.symm⟩

theorem step_granted (h : s.step o (.granted k) = some s') :
    ∃ token axis inputFrom, (s.legs k).stage = .seeded token axis inputFrom ∧
      s' = { s.setLeg k { s.legs k with header := true } with held := token } := by
  simp only [InputPath.step] at h
  split at h
  · obtain ⟨-, rfl⟩ := ite_some_none_eq_some.1 h
    exact ⟨_, _, _, ‹_›, rfl⟩
  · nomatch h

theorem step_resume (h : s.step o (.resume k) = some s') :
    ∃ token axis inputFrom pending tail, (s.legs k).stage = .seeded token axis inputFrom ∧
      s.pending.rebase inputFrom = .ok (pending, tail) ∧
      s' = { s.setLeg k ({ s.legs k with inputSeq := inputFrom }.sendInput tail) with
        pending, dialing := none, current := some k } := by
  simp only [InputPath.step] at h
  split at h
  swap
  · nomatch h
  obtain ⟨-, h⟩ := ite_none_right_eq_some.1 h
  split at h <;> cases h
  exact ⟨_, _, _, _, _, ‹_›, ‹_›, rfl⟩

theorem step_open {noSteal : Bool} (h : s.step o (.open k noSteal) = some s') :
    ∃ token axis inputFrom lease, (s.legs k).stage = .seeded token axis inputFrom ∧
      s' = { s.setLeg k { s.legs k with running := true, applied := inputFrom } with
        session := { s.session with lease } } := by
  simp only [InputPath.step] at h
  split at h
  swap
  · nomatch h
  obtain ⟨-, h⟩ := ite_none_right_eq_some.1 h
  split at h <;> cases h
  exact ⟨_, _, _, _, ‹_›, rfl⟩

theorem step_deliver {send : SendOutcome} (h : s.step o (.deliver k send) = some s') :
    s' = s.setLeg k { s.legs k with taken := (s.legs k).taken + 1, closed := true } ∨
      ∃ token axis inputFrom c, (s.legs k).stage = .seeded token axis inputFrom ∧
        c ∈ (s.legs k).wire ∧ s.brings (.deliver k send) = some ⟨k, axis, c⟩ ∧
        s' = (s.write k axis c send).1.setLeg k
          (pumpReply { s.legs k with taken := (s.legs k).taken + 1 } c
            (s.write k axis c send).2) := by
  simp only [InputPath.step] at h
  split at h
  swap
  · nomatch h
  rename_i token axis inputFrom c hk hc
  obtain ⟨-, h⟩ := ite_none_right_eq_some.1 h
  split at h <;> cases h
  · exact .inl rfl
  · exact .inr ⟨token, axis, inputFrom, c, hk, mem_of_getElem? hc, by simp only [brings, hk, hc],
      rfl⟩

theorem step_copy {i : Nat} {send : SendOutcome} (h : s.step o (.copy k i send) = some s') :
    ∃ token axis inputFrom c, (s.legs k).stage = .seeded token axis inputFrom ∧
      c ∈ (s.legs k).wire ∧ s.brings (.copy k i send) = some ⟨k, axis, c⟩ ∧
      s' = (s.write k axis c send).1.setLeg k
        (copyReply (s.legs k) (s.write k axis c send).2) := by
  simp only [InputPath.step] at h
  split at h
  · rename_i token axis inputFrom c hk hc
    obtain ⟨-, rfl⟩ := ite_some_none_eq_some.1 h
    exact ⟨token, axis, inputFrom, c, hk, mem_of_getElem? hc, by simp only [brings, hk, hc], rfl⟩
  · nomatch h

end

/-- The tokens, the legs and the data of the path. -/
structure PathInv (o : Owner Sid Peer Hash) (s : InputPath Sid Peer Hash) :
    Prop where
  tokens : TokenInv o.hash s.stages s.issued (s.resume o.id) s.tip s.held
  data : DataInv s

namespace PathInv

variable {o : Owner Sid Peer Hash} {s : InputPath Sid Peer Hash}

theorem init [DecidableEq Sid] (o : Owner Sid Peer Hash) (ttl : Nat)
    (token : List UInt8) : PathInv o (new o ttl token) where
  tokens := by
    have hstage : ∀ k, (new o ttl token).stages k =
        if k = 0 then .seeded token FIRST_INPUT_STREAM 0 else .unused := by
      intro k
      simp only [stages, new]
      split <;> rfl
    have hrot : ∀ k t l a, (new o ttl token).stages k ≠ .rotated t l a := by
      intro k t l a h
      rw [hstage] at h
      split at h <;> nomatch h
    have hentry : (new o ttl token).resume o.id =
        some ⟨o.hash token, o.peer, 0 + ttl, FIRST_INPUT_STREAM⟩ := by
      simp only [new, Resume.Registry.issue, update_self]
    rw [hentry]
    refine ⟨mem_singleton_self _, ?_, ?_, ?_, fun k t l a h => absurd h (hrot k t l a),
      fun k t l a h => absurd h (hrot k t l a), fun k t l a h => absurd h (hrot k t l a), ?_, ?_⟩
    · intro k t h
      rw [hstage] at h
      split at h <;> cases h
      exact mem_singleton_self _
    · intro t ht t' ht' _
      rw [mem_singleton.1 ht, mem_singleton.1 ht']
    · intro e he
      cases he
      exact ⟨token, rfl, rfl⟩
    · intro t _ _ e he
      cases he
      rfl
    · intro k t l h
      rw [hstage] at h
      split at h <;> nomatch h
  data := .init o ttl token

theorem setLeg (hs : PathInv o s) {k : Nat} {leg : InputLeg}
    (hstage : leg.stage = (s.legs k).stage) (hwire : leg.wire = (s.legs k).wire)
    (hseq : leg.inputSeq = (s.legs k).inputSeq) :
    PathInv o (s.setLeg k leg) where
  tokens := by
    rw [stages_setLeg, hstage, show (s.legs k).stage = s.stages k from rfl, update_eq_self]
    exact hs.tokens
  data := hs.data.setStage hwire hseq fun t a f h => hs.data.start k t a f (hstage.symm.trans h)

theorem setStage (hs : PathInv o s) {k : Nat} {x : LegStage}
    (hk : ∀ t, x.knows = some t → (s.stages k).knows = some t)
    (hr : ∀ t l, x.read = some (t, l) → s.issued.head? = some t → l = s.tip)
    (hx : ∀ t l a, x ≠ .rotated t l a) (hseed : ∀ t a f, x ≠ .seeded t a f) :
    PathInv o (s.setLeg k { s.legs k with stage := x }) where
  tokens := by
    rw [stages_setLeg]
    exact hs.tokens.move (fun t h => .inr (hk t h)) hr hx
  data := hs.data.setStage rfl rfl fun t a f h => absurd h (hseed t a f)

theorem fail (hs : PathInv o s) (k : Nat) :
    PathInv o (s.setLeg k { s.legs k with stage := .failed }) :=
  hs.setStage nofun nofun nofun
    nofun

variable {op : InputPathOp}

theorem write (hs : PathInv o s) {k axis : Nat} {c : InputChunk}
    {send : SendOutcome} (hbrings : s.brings op = some ⟨k, axis, c⟩) (hc : c ∈ (s.legs k).wire)
    (hkept : s.AxesKept op) (htip : s.LeaseAtTip op) : PathInv o (s.write k axis c send).1 where
  tokens := hs.tokens
  data := hs.data.write (hs.data.wire k c hc) (hkept.2 _ hbrings) (htip _ hbrings)

theorem hangup_frame (leg : InputLeg) (physical : Nat) :
    (leg.hangup physical).stage = leg.stage ∧ (leg.hangup physical).wire = leg.wire ∧
      (leg.hangup physical).inputSeq = leg.inputSeq := by
  unfold InputLeg.hangup
  split <;> exact ⟨rfl, rfl, rfl⟩

theorem hangup (hs : PathInv o s) (physical : Nat) :
    PathInv o { s with
      legs := fun k => (s.legs k).hangup physical
      session := { s.session with lease := (s.session.lease.releaseConnection physical).1 } } := by
  refine ⟨?_, { hs.data with wire := ?_, start := ?_, current := ?_ }⟩
  · have hstages : (fun k => ((s.legs k).hangup physical).stage) = s.stages :=
      funext fun k => (hangup_frame (s.legs k) physical).1
    show TokenInv o.hash (fun k => ((s.legs k).hangup physical).stage) _ _ _ _
    rw [hstages]
    exact hs.tokens
  · intro k c hc
    exact hs.data.wire k c ((hangup_frame (s.legs k) physical).2.1 ▸ hc)
  · intro k t a f h
    exact hs.data.start k t a f ((hangup_frame (s.legs k) physical).1.symm.trans h)
  · intro k hk
    exact (hangup_frame (s.legs k) physical).2.2.trans (hs.data.current k hk)

theorem pumpReply_frame (leg : InputLeg) (c : InputChunk) (reply : WriteReply) :
    (pumpReply leg c reply).stage = leg.stage ∧ (pumpReply leg c reply).wire = leg.wire ∧
      (pumpReply leg c reply).inputSeq = leg.inputSeq := by
  unfold pumpReply
  split <;> exact ⟨rfl, rfl, rfl⟩

theorem copyReply_frame (leg : InputLeg) (reply : WriteReply) :
    (copyReply leg reply).stage = leg.stage ∧ (copyReply leg reply).wire = leg.wire ∧
      (copyReply leg reply).inputSeq = leg.inputSeq := by
  unfold copyReply
  split <;> exact ⟨rfl, rfl, rfl⟩

theorem seed (hs : PathInv o s) {k l a : Nat} {t : List UInt8}
    (hk : (s.legs k).stage = .rotated t l a)
    (hkept : (s.session.appliedInput.insert a (s.session.applied l)).size ≤ MAX_INPUT_AXES) :
    PathInv o { s.setLeg k { s.legs k with
        stage := .seeded t a (s.session.seedInputStream a (some l)).2 } with
      session := (s.session.seedInputStream a (some l)).1
      tip := a } := by
  obtain ⟨-, rfl, -⟩ := hs.tokens.minted k t l a hk
  have happlied : (s.session.seedInputStream a (some s.tip)).1.applied a =
      s.session.applied s.tip :=
    (Meta.applied_of_insert (pruneInputAxes_eq_self hkept) a).trans (if_pos rfl)
  have hleg : DataInv (s.setLeg k { s.legs k with
      stage := .seeded t a (s.session.seedInputStream a (some s.tip)).2 }) := by
    refine hs.data.setStage rfl rfl fun t' a' f h => ?_
    cases h
    exact hs.data.bound
  refine ⟨?_, { hleg with bound := happlied.symm ▸ hs.data.bound, child := ?_ }⟩
  · show TokenInv o.hash (s.setLeg k _).stages _ _ _ _
    rw [stages_setLeg]
    exact hs.tokens.seed hk
  · show s.child = s.typed.take (Meta.applied _ a)
    rw [happlied, hs.data.child]

theorem sendInput (hs : PathInv o s) {k : Nat} {leg : InputLeg} {typed : List UInt8}
    {pending : PendingInput} {dialing current : Option Nat}
    (hdata : DataInv { s.setLeg k leg with typed, pending, dialing, current })
    (hstage : leg.stage = (s.legs k).stage) :
    PathInv o { s.setLeg k leg with typed, pending, dialing, current } := by
  refine ⟨?_, hdata⟩
  show TokenInv o.hash (s.setLeg k leg).stages _ _ _ _
  rw [stages_setLeg, hstage, show (s.legs k).stage = s.stages k from rfl, update_eq_self]
  exact hs.tokens

theorem redial (hs : PathInv o s) (k physical : Nat) (hcurrent : s.current = none) :
    PathInv o { s.setLeg k (.new physical (.requested s.held)) with dialing := some k } := by
  have hleg : DataInv (s.setLeg k (.new physical (.requested s.held))) :=
    hs.data.setLeg nofun (fun hk => nomatch hcurrent.symm.trans hk) nofun
  refine ⟨?_, { hleg with }⟩
  show TokenInv o.hash (s.setLeg k _).stages _ _ _ _
  rw [stages_setLeg]
  exact hs.tokens.move (fun t h => .inl (some.inj h).symm) nofun nofun

theorem reserve (hs : PathInv o s) {k lineage : Nat} (axis : Nat) {token : List UInt8}
    (hk : (s.legs k).stage = .verified token lineage) :
    PathInv o (s.setLeg k { s.legs k with stage := .reserved token lineage axis }) :=
  hs.setStage (fun t h => by rw [stages, hk]; exact h)
    (fun t l h => hs.tokens.read k t l (by rw [stages, hk]; exact h)) nofun nofun

variable [DecidableEq Sid] [DecidableEq Peer] [DecidableEq Hash] {s' : InputPath Sid Peer Hash}

theorem verify (hs : PathInv o s) {k now : Nat} (h : s.step o (.verify k now) = some s') :
    PathInv o s' := by
  obtain ⟨token, hk, rfl | ⟨e, he, rfl⟩⟩ := step_verify h
  · exact hs.fail k
  have hknows : (s.stages k).knows = some token := by rw [stages, hk]; rfl
  refine hs.setStage (fun t h => hknows.trans h) ?_ nofun nofun
  intro t l hl ht
  cases hl
  exact hs.tokens.current token ht (.inr ⟨k, hknows⟩) e he

theorem rotate (hs : PathInv o s) {k ttl now : Nat} {minted : List UInt8}
    (hfresh : s.FreshTokens o.hash (.rotate k ttl now minted))
    (h : s.step o (.rotate k ttl now minted) = some s') : PathInv o s' := by
  obtain ⟨token, lineage, axis, hk, rfl | ⟨e, he, hhash, rfl⟩⟩ := step_rotate h
  · exact hs.fail k
  have hnewest : s.issued.head? = some token :=
    hs.tokens.newest_of_redeemed (by rw [stages, hk]; rfl) he hhash
  have hleg : DataInv (s.setLeg k { s.legs k with stage := .rotated minted lineage axis }) :=
    hs.data.setStage rfl rfl nofun
  refine ⟨?_, { hleg with }⟩
  show TokenInv o.hash (s.setLeg k _).stages _ (update s.resume o.id _ o.id) _ _
  rw [stages_setLeg, update_self]
  exact hs.tokens.rotate hk hnewest hfresh rfl rfl

theorem granted (hs : PathInv o s) {k : Nat} (h : s.step o (.granted k) = some s') :
    PathInv o s' := by
  obtain ⟨token, axis, inputFrom, hk, rfl⟩ := step_granted h
  have hleg : PathInv o (s.setLeg k { s.legs k with header := true }) := hs.setLeg rfl rfl rfl
  have hknows : ((s.setLeg k { s.legs k with header := true }).stages k).knows = some token := by
    rw [stages_setLeg, update_self]
    rw [hk]
    rfl
  exact ⟨hleg.tokens.learn hknows, { hleg.data with }⟩

theorem deliver (hs : PathInv o s) {k : Nat} {send : SendOutcome}
    (hkept : s.AxesKept (.deliver k send)) (htip : s.LeaseAtTip (.deliver k send))
    (h : s.step o (.deliver k send) = some s') : PathInv o s' := by
  obtain rfl | ⟨-, axis, -, c, -, hc, hbrings, rfl⟩ := step_deliver h
  · exact hs.setLeg rfl rfl rfl
  obtain ⟨hst, hw, hq⟩ := pumpReply_frame
    { s.legs k with taken := (s.legs k).taken + 1 } c (s.write k axis c send).2
  exact (hs.write hbrings hc hkept htip).setLeg hst hw hq

theorem step (hfresh : s.FreshTokens o.hash op)
    (hkept : s.AxesKept op) (htip : s.LeaseAtTip op) (h : s.step o op = some s')
    (hs : PathInv o s) : PathInv o s' := by
  cases op with
  | type data =>
    simp only [InputPath.step] at h
    split at h <;> cases h
    exact hs.sendInput (hs.data.type ‹_› ‹_›) rfl
  | ack k i =>
    obtain ⟨-, h⟩ := ite_none_right_eq_some.1 h
    obtain ⟨n, -, rfl⟩ := map_eq_some_iff.1 h
    exact ⟨hs.tokens, { hs.data with pending := hs.data.pending.ack n }⟩
  | lose =>
    cases h
    exact ⟨hs.tokens, { hs.data with current := nofun }⟩
  | redial k physical =>
    obtain ⟨⟨hcurrent, -, -⟩, rfl⟩ := ite_some_none_eq_some.1 h
    exact hs.redial k physical hcurrent
  | giveUp =>
    cases h
    exact ⟨hs.tokens, { hs.data with }⟩
  | verify k now => exact hs.verify h
  | reserve k =>
    simp only [InputPath.step] at h
    split at h <;> cases h
    have hmove := hs.reserve s.session.nextInputStream ‹_›
    exact ⟨hmove.tokens, { hmove.data with }⟩
  | rotate k ttl now minted => exact hs.rotate hfresh h
  | decline k =>
    simp only [InputPath.step] at h
    split at h <;> cases h
    all_goals exact hs.fail k
  | seed k =>
    simp only [InputPath.step] at h
    split at h <;> cases h
    rename_i token lineage axis hk
    exact hs.seed hk (hkept.1 (lineage, axis) (by simp only [seeds, hk]; rfl))
  | granted k => exact hs.granted h
  | resume k =>
    obtain ⟨token, axis, inputFrom, q, tail, hk, hrebase, rfl⟩ := step_resume h
    exact hs.sendInput (hs.data.resume (hs.data.start k token axis inputFrom hk) hrebase) rfl
  | «open» k noSteal =>
    obtain ⟨-, -, inputFrom, -, -, rfl⟩ := step_open h
    have hleg : PathInv o (s.setLeg k { s.legs k with running := true, applied := inputFrom }) :=
      hs.setLeg rfl rfl rfl
    exact ⟨hleg.tokens, { hleg.data with }⟩
  | deliver k send => exact hs.deliver hkept htip h
  | copy k i send =>
    obtain ⟨-, axis, -, c, -, hc, hbrings, rfl⟩ := step_copy h
    obtain ⟨hst, hw, hq⟩ := copyReply_frame (s.legs k) (s.write k axis c send).2
    exact (hs.write hbrings hc hkept htip).setLeg hst hw hq
  | hangup physical =>
    cases h
    exact hs.hangup physical

end PathInv

end InputPath

/-! ## The result -/

/-- In a run in which minted tokens are fresh, no axis is pruned, and the lease
is at the axis that was seeded last whenever a chunk brings new bytes, the child
is given a prefix of what was typed. -/
theorem input_exactly_once [DecidableEq Sid] [DecidableEq Peer] [DecidableEq Hash]
    {o : Owner Sid Peer Hash} {ttl : Nat} {token : List UInt8} {ops : List InputPathOp}
    {s : InputPath Sid Peer Hash}
    (h : Run (InputPath.step o)
      (fun s op => s.FreshTokens o.hash op ∧ s.AxesKept op ∧ s.LeaseAtTip op)
      (.new o ttl token) ops s) :
    s.child <+: s.typed := by
  have hs : s.PathInv o :=
    h.invariant (fun _ _ _ hC hstep hs => hs.step hC.1 hC.2.1 hC.2.2 hstep) (.init o ttl token)
  rw [hs.data.child]
  exact take_prefix _ _

def oneOwner : Owner Nat Nat (List UInt8) :=
  { id := 1, peer := 7, principal := "device", hash := id }

/-- The path is lost with a chunk in flight.  It arrives before the new axis is
seeded, so the new leg has nothing to send again. -/
def chunkBeforeSeed : List InputPathOp :=
  [.open 0 false, .type [104, 105], .lose, .redial 1 1, .verify 1 5, .reserve 1,
    .rotate 1 100 5 [2], .deliver 0 .ok, .seed 1, .granted 1, .resume 1, .open 1 false,
    .hangup 0, .type [33], .deliver 1 .ok]

theorem input_exactly_once_reattach :
    ∃ s : InputPath Nat Nat (List UInt8), Run (InputPath.step oneOwner)
        (fun s op => s.FreshTokens oneOwner.hash op ∧ s.AxesKept op ∧ s.LeaseAtTip op)
        (.new oneOwner 100 [1]) chunkBeforeSeed s ∧
      s.child = [104, 105, 33] ∧ s.child <+: s.typed := by
  have hrun : Run (InputPath.step oneOwner)
      (fun s op => s.FreshTokens oneOwner.hash op ∧ s.AxesKept op ∧ s.LeaseAtTip op)
      (.new oneOwner 100 [1]) chunkBeforeSeed _ :=
    .of_execWhere rfl
  exact ⟨_, hrun, rfl, input_exactly_once hrun⟩

/-- The same chunk arrives after the new axis is seeded and before its stream
opens. -/
def chunkAfterSeed : List InputPathOp :=
  [.open 0 false, .type [104, 105], .lose, .redial 1 1, .verify 1 5, .reserve 1,
    .rotate 1 100 5 [2], .seed 1, .deliver 0 .ok, .granted 1, .resume 1, .open 1 false,
    .hangup 0, .deliver 1 .ok]

/-- The new leg sends it again, and the child is given it twice. -/
theorem late_chunk_is_given_twice :
    ∃ s : InputPath Nat Nat (List UInt8), Run (InputPath.step oneOwner)
        (fun s op => s.FreshTokens oneOwner.hash op ∧ s.AxesKept op)
        (.new oneOwner 100 [1]) chunkAfterSeed s ∧
      s.typed = [104, 105] ∧ s.child = [104, 105, 104, 105] := by
  exact ⟨_, .of_execWhere rfl, rfl, rfl⟩

end Qsh.Session

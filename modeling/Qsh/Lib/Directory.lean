import Qsh.Lib.Update

/-!
# Files under numbered names

A directory as far as a rotating log uses it.  Names are numbers; a name refers to
a file or to nothing, and a file keeps its contents and its number whatever name
it has, or when it has none.  Two names never refer to one file: that is part of
the type, so every operation keeps it.
-/

namespace Qsh.Lib

open Function

/-- Files by number, under names that are slots; no file has two names. -/
structure Directory (β : Type) where
  name : Nat → Option Nat
  file : Nat → β
  next : Nat
  distinct : ∀ m n i, name m = some i → name n = some i → m = n
  below : ∀ n i, name n = some i → i < next

namespace Directory

variable {β : Type}

def empty (b : β) : Directory β where
  name := fun _ => none
  file := fun _ => b
  next := 0
  distinct := by
    intro m n i h
    cases h
  below := by
    intro n i h
    cases h

variable (d : Directory β)

def remove (n : Nat) : Directory β where
  name := update d.name n none
  file := d.file
  next := d.next
  distinct := by
    intro m k i hm hk
    rcases update_cases hm with ⟨-, hm⟩ | ⟨-, hm⟩
    · cases hm
    obtain ⟨-, ⟨⟩⟩ | ⟨-, hk⟩ := update_cases hk
    exact d.distinct m k i hm hk
  below := by
    intro m i hm
    obtain ⟨-, ⟨⟩⟩ | ⟨-, hm⟩ := update_cases hm
    exact d.below m i hm

variable {n m i src dst : Nat}

theorem remove_cases {d : Directory β} (h : (d.remove n).name m = some i) :
    m ≠ n ∧ d.name m = some i := by
  rcases update_cases h with ⟨-, ⟨⟩⟩ | h
  exact h

def create (n : Nat) (b : β) : Directory β where
  name := update d.name n (some d.next)
  file := update d.file d.next b
  next := d.next + 1
  distinct := by
    intro m k i hm hk
    rcases update_cases hm with ⟨hmn, hnew⟩ | ⟨-, hm⟩
    · rcases update_cases hk with ⟨hkn, -⟩ | ⟨-, hk⟩
      · exact hmn.trans hkn.symm
      · have hlt := d.below k i hk
        have heq := Option.some.inj hnew
        omega
    rcases update_cases hk with ⟨-, hk⟩ | ⟨-, hk⟩
    · have hlt := d.below m i hm
      have heq := Option.some.inj hk
      omega
    · exact d.distinct m k i hm hk
  below := by
    intro m i hm
    rcases update_cases hm with ⟨-, hm⟩ | ⟨-, hm⟩
    · have heq := Option.some.inj hm
      omega
    · have hlt := d.below m i hm
      omega

theorem create_cases {d : Directory β} {b : β}
    (h : (d.create n b).name m = some i) : m = n ∧ i = d.next ∨ m ≠ n ∧ d.name m = some i := by
  rcases update_cases h with ⟨hm, h⟩ | h
  · exact .inl ⟨hm, (Option.some.inj h).symm⟩
  · exact .inr h

def rename (src dst : Nat) : Directory β where
  name := update (update d.name src none) dst (d.name src)
  file := d.file
  next := d.next
  distinct := by
    intro m k i hm hk
    rcases update_cases hm with ⟨hmn, hsrc⟩ | ⟨-, hm⟩
    · rcases update_cases hk with ⟨hkn, -⟩ | ⟨-, hk⟩
      · exact hmn.trans hkn.symm
      · obtain ⟨hne, hk⟩ := remove_cases hk
        exact absurd (d.distinct k src i hk hsrc) hne
    · obtain ⟨hne, hm⟩ := remove_cases hm
      rcases update_cases hk with ⟨-, hk⟩ | ⟨-, hk⟩
      · exact absurd (d.distinct m src i hm hk) hne
      · exact d.distinct m k i hm (remove_cases hk).2
  below := by
    intro m i hm
    rcases update_cases hm with ⟨-, hm⟩ | ⟨-, hm⟩
    · exact d.below src i hm
    · exact d.below m i (remove_cases hm).2

theorem rename_cases {d : Directory β} (h : (d.rename src dst).name m = some i) :
    m = dst ∧ d.name src = some i ∨ m ≠ src ∧ m ≠ dst ∧ d.name m = some i := by
  rcases update_cases h with h | ⟨hm, h⟩
  · exact .inl h
  · obtain ⟨hne, h⟩ := remove_cases h
    exact .inr ⟨hne, hm, h⟩

def modify (i : Nat) (f : β → β) : Directory β :=
  { d with file := update d.file i (f (d.file i)) }

@[simp] theorem remove_name_self (n : Nat) : (d.remove n).name n = none := by
  show update d.name n none n = none
  rw [update_self]

theorem remove_name_of_ne (h : m ≠ n) :
    (d.remove n).name m = d.name m := by
  show update d.name n none m = d.name m
  rw [update_of_ne h]

@[simp] theorem create_name_self (n : Nat) (b : β) :
    (d.create n b).name n = some d.next := by
  show update d.name n (some d.next) n = some d.next
  rw [update_self]

theorem create_name_of_ne (b : β) (h : m ≠ n) :
    (d.create n b).name m = d.name m := by
  show update d.name n (some d.next) m = d.name m
  rw [update_of_ne h]

@[simp] theorem create_file_self (n : Nat) (b : β) :
    (d.create n b).file d.next = b := by
  show update d.file d.next b d.next = b
  rw [update_self]

theorem rename_name_dst (src dst : Nat) :
    (d.rename src dst).name dst = d.name src := by
  show update (update d.name src none) dst (d.name src) dst = d.name src
  rw [update_self]

theorem rename_name_src (h : src ≠ dst) :
    (d.rename src dst).name src = none := by
  show update (update d.name src none) dst (d.name src) src = none
  rw [update_of_ne h, update_self]

theorem rename_name_of_ne (hsrc : n ≠ src) (hdst : n ≠ dst) :
    (d.rename src dst).name n = d.name n := by
  show update (update d.name src none) dst (d.name src) n = d.name n
  rw [update_of_ne hdst, update_of_ne hsrc]

theorem create_file_of_lt (b : β) (h : i < d.next) :
    (d.create n b).file i = d.file i :=
  update_of_ne (by omega) _ _

@[simp] theorem modify_name (i : Nat) (f : β → β) :
    (d.modify i f).name = d.name := rfl

theorem modify_file (i j : Nat) (f : β → β) :
    (d.modify i f).file j = if j = i then f (d.file i) else d.file j :=
  update_apply _ _ _ _

theorem modify_undone {f g : β → β} (h : g (f (d.file i)) = d.file i) :
    (d.modify i f).modify i g = d := by
  unfold modify
  dsimp only
  rw [update_idem, update_self, h, update_eq_self]

end Directory

end Qsh.Lib

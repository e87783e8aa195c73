import Qsh.Acl.Policy

/-!
# Grant sets

The connection watch closes a connection when a new standing grants less than the one it
was accepted with (`acl/roles.rs`, `trust/connection_watch.rs`).  It compares summaries:
`RoleGrants::of_standing` merges the role and the pin into one ownership axis and one path
limit for each action.  Enforcement asks the role and the pin one after the other.

The two agree, except about the actions of the role `reverse`, whose axis is the one that
does not apply (`covers_iff_nothing_lost`).
-/

namespace Qsh.Acl

open List

def scopeCovers (new old : RoleScope) : Bool := new = .any || new = old

/-- The wider of the held scope and a further one. -/
def widen (held : Option RoleScope) (axis : RoleScope) : RoleScope :=
  match held with
  | none => axis
  | some held => if scopeCovers held axis then held else axis

def Scope.axis : Scope → RoleScope
  | .owned => .owned
  | .any => .any

def find {β : Type} (entries : List (Action × β)) (a : Action) : Option β :=
  (entries.find? fun e => e.1 = a).map (·.2)

/-- What a standing grants, as it is recorded for a live connection. -/
structure RoleGrants where
  entries : List (Action × RoleScope)
  filePaths : List (Action × List Text)

namespace RoleGrants

def ofRole : Option TrustRole → RoleGrants
  | none => ⟨[], []⟩
  | some role => ⟨(roleGrant role).actions.map fun a => (a, (roleGrant role).scope), []⟩

def mergeEntry (axis : RoleScope) (a : Action) :
    List (Action × RoleScope) → List (Action × RoleScope)
  | [] => [(a, axis)]
  | e :: es =>
      if e.1 = a then (e.1, widen (some e.2) axis) :: es
      else e :: mergeEntry axis a es

def mergeAction (pin : PinGrants) (g : RoleGrants) (a : Action) : RoleGrants where
  entries := mergeEntry pin.scope.axis a g.entries
  filePaths :=
    if (find g.entries a).isNone && a.isFile then g.filePaths ++ [(a, pin.paths.getD [])]
    else g.filePaths

/-- The grants of a role, with those of the pin merged in. -/
def ofStanding (s : Standing) : RoleGrants :=
  match s.pin with
  | none => ofRole s.role
  | some pin => pin.actions.foldl (mergeAction pin) (ofRole s.role)

def pathsOf (g : RoleGrants) (a : Action) : Option (List Text) := find g.filePaths a

/-- `paths_cover`: no limit covers everything, and is covered by no limit only. -/
def limitCovers (new old : Option (List Text)) : Bool :=
  match new, old with
  | none, _ => true
  | some _, none => false
  | some new, some old => old.all fun e => new.any fun n => entryWithin n e

/-- Whether `g` grants all that `recorded` does. -/
def covers (g recorded : RoleGrants) : Bool :=
  recorded.entries.all fun e =>
    (g.entries.any fun n => n.1 = e.1 && scopeCovers n.2 e.2) &&
      limitCovers (g.pathsOf e.1) (recorded.pathsOf e.1)

end RoleGrants

/-! ## What a standing holds -/

namespace Standing

def roleAxis (s : Standing) (a : Action) : Option RoleScope :=
  s.role.bind fun role =>
    if (roleGrant role).actions.contains a then some (roleGrant role).scope else none

def pinAxis (s : Standing) (a : Action) : Option RoleScope :=
  s.pin.bind fun pin => if pin.actions.contains a then some pin.scope.axis else none

def holds (s : Standing) (a : Action) : Bool := (s.roleAxis a).isSome || (s.pinAxis a).isSome

def wide (s : Standing) (a : Action) : Bool :=
  (s.roleAxis a).any (· ≠ .owned) || (s.pinAxis a).any (· ≠ .owned)

/-- The path limit of a file action that only the pin grants. -/
def limit (s : Standing) (a : Action) : Option (List Text) :=
  if a.isFile && (s.roleAxis a).isNone && (s.pinAxis a).isSome then
    some ((s.pin.bind (·.paths)).getD [])
  else none

def recordedAxis (s : Standing) (a : Action) : Option RoleScope :=
  match s.pinAxis a with
  | none => s.roleAxis a
  | some axis => some (widen (s.roleAxis a) axis)

end Standing

/-! ## The summary -/

namespace RoleGrants

variable {a b : Action} {axis : RoleScope} {s : Standing}

theorem find_cons {β : Type} (e : Action × β) (es : List (Action × β)) (a : Action) :
    find (e :: es) a = if e.1 = a then some e.2 else find es a := by
  by_cases h : e.1 = a <;> simp [find, h]

theorem find_nil {β : Type} (a : Action) : find ([] : List (Action × β)) a = none := rfl

theorem find_append {β : Type} (es fs : List (Action × β)) (a : Action) :
    find (es ++ fs) a = (find es a).or (find fs a) := by
  rw [find, find?_append, Option.map_or]
  rfl

theorem find_eq_some {β : Type} {es : List (Action × β)} (hnodup : (es.map (·.1)).Nodup)
    {x : β} : find es a = some x ↔ (a, x) ∈ es := by
  induction es with
  | nil => simp [find]
  | cons e es ih =>
    rw [map_cons, nodup_cons] at hnodup
    rw [find_cons, mem_cons]
    split
    · rename_i h
      subst h
      constructor
      · intro h
        cases h
        exact .inl rfl
      · rintro (h | h)
        · rw [← h]
        · exact absurd (mem_map_of_mem (f := (·.1)) h) hnodup.1
    · rename_i h
      rw [ih hnodup.2]
      constructor
      · exact .inr
      · rintro (h' | h')
        · exact absurd (congrArg Prod.fst h').symm h
        · exact h'

theorem find_mergeEntry (axis : RoleScope) (a b : Action) (es : List (Action × RoleScope)) :
    find (mergeEntry axis a es) b =
      if b = a then some (widen (find es a) axis) else find es b := by
  induction es with
  | nil => simp [mergeEntry, find_cons, find_nil, widen, eq_comm]
  | cons e es ih =>
    unfold mergeEntry
    by_cases hea : e.1 = a
    · by_cases hb : b = a
      · simp [find_cons, hea, hb]
      · simp [find_cons, hea, hb, Ne.symm hb]
    · obtain rfl | hb := eq_or_ne b a
      · simp [find_cons, hea, ih]
      · simp [find_cons, hea, hb, ih]

theorem keys_mergeEntry (axis : RoleScope) (a : Action) (es : List (Action × RoleScope)) :
    (mergeEntry axis a es).map (·.1) =
      if a ∈ es.map (·.1) then es.map (·.1) else es.map (·.1) ++ [a] := by
  induction es with
  | nil => rfl
  | cons e es ih =>
    unfold mergeEntry
    by_cases hea : e.1 = a
    · rw [if_pos hea, if_pos (hea ▸ mem_cons_self)]
      rfl
    have hmem : a ∈ (e :: es).map (·.1) ↔ a ∈ es.map (·.1) := by
      rw [map_cons, mem_cons]
      exact ⟨fun h => h.resolve_left (Ne.symm hea), .inr⟩
    rw [if_neg hea, map_cons, ih]
    simp only [hmem]
    split <;> rfl

theorem nodup_mergeEntry {es : List (Action × RoleScope)} (hnodup : (es.map (·.1)).Nodup)
    (axis : RoleScope) (a : Action) : ((mergeEntry axis a es).map (·.1)).Nodup := by
  rw [keys_mergeEntry]
  split
  · exact hnodup
  rename_i h
  refine nodup_append.2 ⟨hnodup, nodup_cons.2 ⟨not_mem_nil, nodup_nil⟩, ?_⟩
  intro b hb c hc hbc
  exact h (mem_singleton.1 hc ▸ hbc ▸ hb)

theorem nodup_ofRole (role : Option TrustRole) : ((ofRole role).entries.map (·.1)).Nodup := by
  cases role with
  | none => exact nodup_nil
  | some role => cases role <;> decide

variable (pin : PinGrants)

variable {actions : List Action}

def addedLimit (g : RoleGrants) (b : Action) (named : Bool) :
    Option (List Text) :=
  if named && (find g.entries b).isNone && b.isFile then some (pin.paths.getD []) else none

theorem pathsOf_mergeAction (g : RoleGrants) (a b : Action) :
    (mergeAction pin g a).pathsOf b = (g.pathsOf b).or (addedLimit pin g b (b = a)) := by
  unfold mergeAction pathsOf addedLimit
  obtain rfl | hb := eq_or_ne b a
  · by_cases hnew : ((find g.entries b).isNone && b.isFile) = true
    · simp [hnew, find_append, find_cons]
    · simp [hnew]
  have hne : ¬ a = b := Ne.symm hb
  by_cases hnew : ((find g.entries a).isNone && a.isFile) = true
  · simp [hnew, find_append, find_cons, find_nil, hb, hne]
  · simp [hnew, hb]

theorem foldl_mergeAction (hnodup : actions.Nodup) (g : RoleGrants) (b : Action) :
    find (actions.foldl (mergeAction pin) g).entries b =
        (if b ∈ actions then some (widen (find g.entries b) pin.scope.axis)
          else find g.entries b) ∧
      (actions.foldl (mergeAction pin) g).pathsOf b =
        (g.pathsOf b).or (addedLimit pin g b (b ∈ actions)) := by
  induction actions generalizing g with
  | nil => simp [addedLimit]
  | cons a actions ih =>
    obtain ⟨ha, hnodup⟩ := nodup_cons.1 hnodup
    have hround : find (mergeAction pin g a).entries b =
        if b = a then some (widen (find g.entries a) pin.scope.axis) else find g.entries b :=
      find_mergeEntry _ _ _ _
    rw [foldl_cons, (ih hnodup _).1, (ih hnodup _).2, pathsOf_mergeAction]
    obtain rfl | hb := eq_or_ne b a
    · simp [addedLimit, ha, hround]
    · simp [addedLimit, hround, hb]

theorem find_ofRole (role : Option TrustRole) (pin : Option PinGrants) (a : Action) :
    find (ofRole role).entries a = (Standing.mk role pin).roleAxis a := by
  cases role with
  | none => rfl
  | some role => cases role <;> cases a <;> rfl

theorem pathsOf_ofRole (role : Option TrustRole) (a : Action) :
    (ofRole role).pathsOf a = none := by
  cases role <;> rfl

theorem find_ofStanding (s : Standing) (a : Action) :
    find (ofStanding s).entries a = s.recordedAxis a := by
  obtain ⟨role, pin⟩ := s
  cases pin with
  | none => exact find_ofRole role none a
  | some pin =>
    show find (pin.actions.foldl (mergeAction pin) (ofRole role)).entries a = _
    rw [(foldl_mergeAction pin pin.nodup _ _).1, find_ofRole role (some pin)]
    by_cases ha : a ∈ pin.actions
    all_goals simp [Standing.recordedAxis, Standing.pinAxis, ha]

theorem pathsOf_ofStanding (s : Standing) (a : Action) :
    (ofStanding s).pathsOf a = s.limit a := by
  obtain ⟨role, pin⟩ := s
  cases pin with
  | none =>
    refine (pathsOf_ofRole role a).trans ?_
    simp [Standing.limit, Standing.pinAxis]
  | some pin =>
    show (pin.actions.foldl (mergeAction pin) (ofRole role)).pathsOf a = _
    rw [(foldl_mergeAction pin pin.nodup _ _).2, pathsOf_ofRole, addedLimit,
      find_ofRole role (some pin)]
    by_cases ha : a ∈ pin.actions
    · by_cases hfile : a.isFile = true
      · simp [Standing.limit, Standing.pinAxis, ha, hfile]
      · simp [Standing.limit, hfile]
    · simp [Standing.limit, Standing.pinAxis, ha]

theorem nodup_ofStanding (s : Standing) : ((ofStanding s).entries.map (·.1)).Nodup := by
  obtain ⟨role, pin⟩ := s
  cases pin with
  | none => exact nodup_ofRole role
  | some pin =>
    exact List.foldlRecOn (motive := fun g : RoleGrants => (g.entries.map (·.1)).Nodup) pin.actions
      (mergeAction pin) (nodup_ofRole role) fun _ hnodup _ _ => nodup_mergeEntry hnodup _ _

def CoversAction (new old : Standing) (a : Action) : Prop :=
  ∀ x, old.recordedAxis a = some x → (∃ y, new.recordedAxis a = some y ∧ scopeCovers y x = true) ∧
      limitCovers (new.limit a) (old.limit a) = true

theorem mem_entries {x : RoleScope} :
    (a, x) ∈ (ofStanding s).entries ↔ s.recordedAxis a = some x := by
  rw [← find_eq_some (nodup_ofStanding s), find_ofStanding]

theorem covers_iff (new old : Standing) :
    (ofStanding new).covers (ofStanding old) = true ↔ ∀ a, CoversAction new old a := by
  unfold covers CoversAction
  rw [all_eq_true]
  simp only [Bool.and_eq_true, any_eq_true, decide_eq_true_eq, pathsOf_ofStanding]
  constructor
  · intro h a x hx
    obtain ⟨⟨n, hn, rfl, hcovers⟩, hlimit⟩ := h (a, x) (mem_entries.2 hx)
    exact ⟨⟨n.2, mem_entries.1 hn, hcovers⟩, hlimit⟩
  · rintro h ⟨a, x⟩ hx
    obtain ⟨⟨y, hy, hcovers⟩, hlimit⟩ := h a x (mem_entries.1 hx)
    exact ⟨⟨(a, y), mem_entries.2 hy, rfl, hcovers⟩, hlimit⟩

end RoleGrants

/-! ## Enforcement -/

def ResourceRef.Lexical (resource : ResourceRef) : Prop :=
  ∀ request, resource.canonicalPath = some request →
    request.normalize = fun entry => some (components entry)

def lexicalRequest (owner : Option String) (path : Option (List Text)) : ResourceRef where
  id := ""
  owner
  canonicalPath := path.map fun p => ⟨p, fun entry => some (components entry)⟩

theorem lexical_lexicalRequest (owner : Option String) (path : Option (List Text)) :
    (lexicalRequest owner path).Lexical := by
  intro request h
  obtain ⟨p, -, rfl⟩ := Option.map_eq_some_iff.1 h
  rfl

theorem pathsCover_iff {paths : Option (List Text)} {resource : ResourceRef}
    (hlex : resource.Lexical) :
    pathsCover paths resource = true ↔
      ∃ entries request, paths = some entries ∧ resource.canonicalPath = some request ∧
        ∃ e ∈ entries, components e <+: request.path := by
  unfold pathsCover
  constructor
  · intro h
    split at h
    · rename_i entries request hrequest
      unfold entriesCover at h
      rw [hlex request hrequest] at h
      obtain ⟨e, he, hprefix⟩ := any_eq_true.1 h
      exact ⟨entries, request, rfl, hrequest, e, he, List.isPrefixOf_iff_prefix.1 hprefix⟩
    · cases h
  · rintro ⟨entries, request, rfl, hrequest, e, he, hprefix⟩
    simp only [hrequest]
    unfold entriesCover
    rw [hlex request hrequest]
    exact any_eq_true.2 ⟨e, he, List.isPrefixOf_iff_prefix.2 hprefix⟩

theorem roleScopeOk_iff (axis : RoleScope) (owner : Option String) (key : String) :
    roleScopeOk axis owner key = true ↔ axis ≠ .owned ∨ owner = none ∨ owner = some key := by
  cases axis <;> cases owner <;> simp [roleScopeOk]

theorem scopeOk_eq (scope : Scope) (owner : Option String) (key : String) :
    scopeOk scope owner key = roleScopeOk scope.axis owner key := by
  cases scope <;> cases owner <;> rfl

namespace Standing

open RoleGrants

variable {s old new : Standing} {a : Action} {name : String} {resource : ResourceRef}

/-- The standing grants the action on the resource, in this scope. -/
def GrantsOn (s : Standing) (a : Action) (resource : ResourceRef) (axis : RoleScope) : Prop :=
  s.roleAxis a = some axis ∨ s.pinAxis a = some axis ∧
      (a.isFile = true → pathsCover (s.pin.bind (·.paths)) resource = true)

variable {axis : RoleScope}

theorem roleAxis_eq_some :
    s.roleAxis a = some axis ↔ ∃ role, s.role = some role ∧ a ∈ (roleGrant role).actions ∧
        (roleGrant role).scope = axis := by
  unfold roleAxis
  cases s.role with
  | none | some => simp

theorem pinAxis_eq_some :
    s.pinAxis a = some axis ↔
      ∃ pin, s.pin = some pin ∧ a ∈ pin.actions ∧ pin.scope.axis = axis := by
  unfold pinAxis
  cases s.pin with
  | none | some => simp

theorem role_allowed {role : TrustRole} (h : a ∈ (roleGrant role).actions) :
    a.isAlwaysDenied = false := by
  revert h
  cases role <;> cases a <;> decide

theorem allow_iff :
    (Policy.decideStanding ⟨[]⟩ (.device name) .pin s a resource).isAllow = true ↔
      ∃ axis, s.GrantsOn a resource axis ∧ (axis ≠ .owned ∨ resource.owner = none ∨
          resource.owner = some (openerKey (.device name) .pin)) := by
  rw [Policy.isAllow_iff]
  simp only [Option.any_eq_true, any_nil, Bool.false_eq_true, or_false]
  constructor
  · rintro ⟨-, ⟨role, hrole, hgrants⟩ | ⟨pin, hpin, hgrants⟩⟩
    · simp only [roleGrants, roleCovers, Bool.and_eq_true, contains_iff_mem] at hgrants
      exact ⟨_, .inl (roleAxis_eq_some.2 ⟨role, hrole, hgrants.1.2, rfl⟩),
        (roleScopeOk_iff _ _ _).1 hgrants.2⟩
    simp only [pinGrantsRequest, pinCovers, Bool.and_eq_true, contains_iff_mem,
      scopeOk_eq] at hgrants
    obtain ⟨⟨-, hmem⟩, hscope, hpaths⟩ := hgrants
    refine ⟨_, .inr ⟨pinAxis_eq_some.2 ⟨pin, hpin, hmem, rfl⟩, fun hfile => ?_⟩,
      (roleScopeOk_iff _ _ _).1 hscope⟩
    rw [hpin]
    simpa [hfile] using hpaths
  rintro ⟨axis, hroleAxis | ⟨hpinAxis, hpaths⟩, howner⟩
  · obtain ⟨role, hrole, hmem, rfl⟩ := roleAxis_eq_some.1 hroleAxis
    refine ⟨role_allowed hmem, .inl ⟨role, hrole, ?_⟩⟩
    simp only [roleGrants, roleCovers, Bool.and_eq_true, contains_iff_mem]
    exact ⟨⟨by simp [Principal.isDevice], hmem⟩, (roleScopeOk_iff _ _ _).2 howner⟩
  obtain ⟨pin, hpin, hmem, rfl⟩ := pinAxis_eq_some.1 hpinAxis
  refine ⟨pin.allowed a hmem, .inr ⟨pin, hpin, ?_⟩⟩
  rw [hpin] at hpaths
  simp only [pinGrantsRequest, pinCovers, Bool.and_eq_true, contains_iff_mem, scopeOk_eq]
  refine ⟨⟨by simp [Principal.isDevice, pin.allowed a hmem], hmem⟩,
    (roleScopeOk_iff _ _ _).2 howner, ?_⟩
  cases hfile : a.isFile with
  | false => rfl
  | true => simpa using hpaths hfile

theorem holds_iff : s.holds a = true ↔
    ∃ axis, s.roleAxis a = some axis ∨ s.pinAxis a = some axis := by
  unfold holds
  cases s.roleAxis a <;> cases s.pinAxis a <;> simp

theorem wide_iff : s.wide a = true ↔
    ∃ axis, (s.roleAxis a = some axis ∨ s.pinAxis a = some axis) ∧ axis ≠ .owned := by
  unfold wide
  cases s.roleAxis a <;> cases s.pinAxis a <;> simp

theorem GrantsOn.axis_eq (h : s.GrantsOn a resource axis) :
    s.roleAxis a = some axis ∨ s.pinAxis a = some axis :=
  h.imp_right And.left

theorem paths_of_file {pin : PinGrants} (hmem : a ∈ pin.actions) (hfile : a.isFile = true) :
    ∃ e rest, pin.paths = some (e :: rest) := by
  have hsome : pin.paths.isSome = true := by
    rw [pin.limited]
    exact any_eq_true.2 ⟨a, hmem, hfile⟩
  obtain ⟨entries, hentries⟩ := Option.isSome_iff_exists.1 hsome
  obtain ⟨e, rest, rfl⟩ : ∃ e rest, entries = e :: rest :=
    exists_cons_of_ne_nil fun hnil => pin.listed (hnil ▸ hentries)
  exact ⟨e, rest, hentries⟩

variable {entries : List Text}

theorem limit_eq_some (h : s.limit a = some entries) :
    a.isFile = true ∧ s.roleAxis a = none ∧ (s.pinAxis a).isSome = true ∧
      s.pin.bind (·.paths) = some entries := by
  unfold limit at h
  split at h
  swap
  · cases h
  rename_i hcond
  simp only [Bool.and_eq_true, Option.isNone_iff_eq_none] at hcond
  obtain ⟨⟨hfile, hrole⟩, hpin⟩ := hcond
  refine ⟨hfile, hrole, hpin, ?_⟩
  obtain ⟨axis, haxis⟩ := Option.isSome_iff_exists.1 hpin
  obtain ⟨pin, hpin, hmem, -⟩ := pinAxis_eq_some.1 haxis
  obtain ⟨e, rest, hps⟩ := paths_of_file hmem hfile
  rw [hpin] at h ⊢
  simpa [hps] using h

theorem roleAxis_file (hfile : a.isFile = true) (h : s.roleAxis a = some axis) : axis = .any := by
  obtain ⟨role, -, hmem, rfl⟩ := roleAxis_eq_some.1 h
  revert hmem hfile
  cases role <;> cases a <;> decide

theorem limit_of_not_file (hfile : a.isFile = false) : s.limit a = none := by
  simp [limit, hfile]

theorem grantsOn_of_unlimited (hlimit : s.limit a = none)
    (h : s.roleAxis a = some axis ∨ s.pinAxis a = some axis) (resource : ResourceRef) :
    ∃ x, s.GrantsOn a resource x ∧ (axis ≠ .owned → x ≠ .owned) := by
  cases hfile : a.isFile with
  | false => exact ⟨axis, h.imp_right fun hpin => ⟨hpin, fun hf => by simp [hfile] at hf⟩, id⟩
  | true =>
    cases hrole : s.roleAxis a with
    | some x =>
      have hany := roleAxis_file hfile hrole
      refine ⟨x, .inl hrole, fun _ => ?_⟩
      rw [hany]
      decide
    | none =>
      have hpin : s.pinAxis a = some axis := h.resolve_left (by simp [hrole])
      simp [limit, hfile, hrole, hpin] at hlimit

/-- An action is kept: for the owner if it was granted, for everybody if it was granted
to everybody, and for the paths it was granted for. -/
structure Keeps (old new : Standing) (a : Action) : Prop where
  held : old.holds a = true → new.holds a = true
  wide : old.wide a = true → new.wide a = true
  paths : old.holds a = true → limitCovers (new.limit a) (old.limit a) = true

theorem valid_entry {e : Text} (hentries : s.pin.bind (·.paths) = some entries) (he : e ∈ entries) :
    validateEntry e = .ok () := by
  obtain ⟨pin, -, hpaths⟩ := Option.bind_eq_some_iff.1 hentries
  exact pin.valid entries hpaths e he

theorem Keeps.grantsOn (h : Keeps old new a) (hlex : resource.Lexical)
    (hold : old.GrantsOn a resource axis) :
    ∃ x, new.GrantsOn a resource x ∧ (axis ≠ .owned → x ≠ .owned) := by
  have hholds : old.holds a = true := holds_iff.2 ⟨axis, hold.axis_eq⟩
  have hnew : ∃ x, (new.roleAxis a = some x ∨ new.pinAxis a = some x) ∧
      (axis ≠ .owned → x ≠ .owned) := by
    by_cases haxis : axis = .owned
    · obtain ⟨x, hx⟩ := holds_iff.1 (h.held hholds)
      exact ⟨x, hx, fun hne => absurd haxis hne⟩
    · obtain ⟨x, hx, hne⟩ := wide_iff.1 (h.wide (wide_iff.2 ⟨axis, hold.axis_eq, haxis⟩))
      exact ⟨x, hx, fun _ => hne⟩
  obtain ⟨x, hx, hwide⟩ := hnew
  have hpaths := h.paths hholds
  cases hlimit : new.limit a with
  | none =>
    obtain ⟨y, hy, hyx⟩ := grantsOn_of_unlimited hlimit hx resource
    exact ⟨y, hy, fun hne => hyx (hwide hne)⟩
  | some entries =>
    obtain ⟨hfile, hrole, -, hentries⟩ := limit_eq_some hlimit
    have hpin : new.pinAxis a = some x := hx.resolve_left (by simp [hrole])
    refine ⟨x, .inr ⟨hpin, fun _ => ?_⟩, hwide⟩
    -- the limit of the new standing is only reached if the old one had one too
    rw [hlimit] at hpaths
    cases hlimit' : old.limit a with rw [hlimit'] at hpaths
    | none =>
      cases hpaths
    | some recorded =>
      obtain ⟨-, hrole', -, hrecorded⟩ := limit_eq_some hlimit'
      obtain ⟨-, hcover⟩ := hold.resolve_left (by simp [hrole'])
      obtain ⟨entries', request, hentries', hrequest, e, he, hprefix⟩ :=
        (pathsCover_iff hlex).1 (hcover hfile)
      cases hrecorded.symm.trans hentries'
      obtain ⟨n, hn, hwithin⟩ := any_eq_true.1 (all_eq_true.1 hpaths e he)
      have hprefix' := (entryWithin_iff (valid_entry hentries hn) (valid_entry hrecorded he)).1
        hwithin
      exact (pathsCover_iff hlex).2
        ⟨entries, request, hentries, hrequest, n, hn, hprefix'.trans hprefix⟩

theorem exists_path (h : s.roleAxis a = some axis ∨ s.pinAxis a = some axis) :
    ∃ path, ∀ owner, s.GrantsOn a (lexicalRequest owner path) axis := by
  rcases h with hrole | hpinAxis
  · exact ⟨none, fun _ => .inl hrole⟩
  cases hfile : a.isFile with
  | false => exact ⟨none, fun _ => .inr ⟨hpinAxis, fun hf => by simp [hfile] at hf⟩⟩
  | true =>
    obtain ⟨pin, hpin, hmem, -⟩ := pinAxis_eq_some.1 hpinAxis
    obtain ⟨e, rest, hentries⟩ := paths_of_file hmem hfile
    refine ⟨some (components e), fun owner => .inr ⟨hpinAxis, fun _ => ?_⟩⟩
    rw [pathsCover_iff (lexical_lexicalRequest _ _), hpin]
    exact ⟨_, _, hentries, rfl, e, mem_cons_self, prefix_rfl⟩

/-- Under the empty policy, every request that the old standing allows the new one
allows. -/
def NothingLost (name : String) (old new : Standing) : Prop :=
  ∀ (action : Action) (resource : ResourceRef), resource.Lexical →
    (Policy.decideStanding ⟨[]⟩ (.device name) .pin old action resource).isAllow = true →
    (Policy.decideStanding ⟨[]⟩ (.device name) .pin new action resource).isAllow = true

theorem exists_other_owner (key : String) : ∃ owner : String, owner ≠ key := by
  by_cases h : key = ""
  · exact ⟨"x", by rw [h]; decide⟩
  · exact ⟨"", Ne.symm h⟩

theorem keeps_of_nothingLost (h : NothingLost name old new) (a : Action) : Keeps old new a := by
  have hown : ∀ path axis, old.GrantsOn a (lexicalRequest none path) axis →
      ∃ x, new.GrantsOn a (lexicalRequest none path) x := by
    intro path axis hold
    obtain ⟨x, hx, -⟩ := allow_iff.1
      (h a _ (lexical_lexicalRequest none path) (allow_iff.2 ⟨axis, hold, .inr (.inl rfl)⟩))
    exact ⟨x, hx⟩
  constructor
  · intro hholds
    obtain ⟨axis, haxis⟩ := holds_iff.1 hholds
    obtain ⟨path, hpath⟩ := exists_path haxis
    obtain ⟨x, hx⟩ := hown path axis (hpath none)
    exact holds_iff.2 ⟨x, hx.axis_eq⟩
  · intro hwide
    obtain ⟨axis, haxis, hne⟩ := wide_iff.1 hwide
    obtain ⟨path, hpath⟩ := exists_path haxis
    obtain ⟨owner, howner⟩ := exists_other_owner (openerKey (.device name) .pin)
    obtain ⟨x, hx, hx'⟩ := allow_iff.1 (h a _ (lexical_lexicalRequest (some owner) path)
        (allow_iff.2 ⟨axis, hpath (some owner), .inl hne⟩))
    refine wide_iff.2 ⟨x, hx.axis_eq, ?_⟩
    rcases hx' with hx' | hx' | hx'
    · exact hx'
    · cases hx'
    · exact absurd (Option.some.inj hx') howner
  · intro hholds
    cases hlimit : new.limit a with
    | none => rfl
    | some entries =>
      obtain ⟨hfile, hrole, -, hentries⟩ := limit_eq_some hlimit
      cases hlimit' : old.limit a with
      | none =>
        -- without a limit, a request that names no path was allowed
        obtain ⟨axis, haxis⟩ := holds_iff.1 hholds
        obtain ⟨y, hy, -⟩ := grantsOn_of_unlimited hlimit' haxis (lexicalRequest none none)
        obtain ⟨x, hx⟩ := hown none y hy
        obtain ⟨-, hcover⟩ := hx.resolve_left (by simp [hrole])
        obtain ⟨-, request, -, hrequest, -⟩ :=
          (pathsCover_iff (lexical_lexicalRequest _ _)).1 (hcover hfile)
        cases hrequest
      | some recorded =>
        obtain ⟨-, -, hpin, hrecorded⟩ := limit_eq_some hlimit'
        obtain ⟨axis, haxis⟩ := Option.isSome_iff_exists.1 hpin
        refine all_eq_true.2 fun e he => ?_
        have hold : old.GrantsOn a (lexicalRequest none (some (components e))) axis := by
          refine .inr ⟨haxis, fun _ => (pathsCover_iff (lexical_lexicalRequest _ _)).2 ?_⟩
          exact ⟨recorded, _, hrecorded, rfl, e, he, prefix_rfl⟩
        obtain ⟨x, hx⟩ := hown _ axis hold
        obtain ⟨-, hcover⟩ := hx.resolve_left (by simp [hrole])
        obtain ⟨entries', request, hentries', hrequest, n, hn, hprefix⟩ :=
          (pathsCover_iff (lexical_lexicalRequest _ _)).1 (hcover hfile)
        cases hentries.symm.trans hentries'
        cases hrequest
        exact any_eq_true.2 ⟨n, hn,
          (entryWithin_iff (valid_entry hentries hn) (valid_entry hrecorded he)).2 hprefix⟩

theorem nothingLost_iff : NothingLost name old new ↔ ∀ a, Keeps old new a := by
  constructor
  · exact fun h a => keeps_of_nothingLost h a
  intro h a resource hlex hallow
  obtain ⟨axis, hold, howner⟩ := allow_iff.1 hallow
  obtain ⟨x, hx, hwide⟩ := (h a).grantsOn hlex hold
  exact allow_iff.2 ⟨x, hx, howner.imp_left hwide⟩

/-! ## The axis that does not apply -/

def InReverse (s : Standing) (a : Action) : Prop :=
  s.role = some .reverse ∧ a ∈ (roleGrant .reverse).actions

theorem not_file_of_reverse (h : a ∈ (roleGrant .reverse).actions) : a.isFile = false := by
  revert h
  cases a <;> decide

theorem InReverse.roleAxis (h : s.InReverse a) : s.roleAxis a = some .notApplicable :=
  roleAxis_eq_some.2 ⟨.reverse, h.1, h.2, rfl⟩

theorem roleAxis_applies (h : ¬ s.InReverse a) : s.roleAxis a ≠ some .notApplicable := by
  intro haxis
  obtain ⟨role, hrole, hmem, hscope⟩ := roleAxis_eq_some.1 haxis
  cases role with
  | reverse => exact h ⟨hrole, hmem⟩
  | none => cases hmem
  | full | exec | tunnel | readOnly => cases hscope

theorem pinAxis_applies (s : Standing) (a : Action) : s.pinAxis a ≠ some .notApplicable := by
  intro haxis
  obtain ⟨pin, -, -, hscope⟩ := pinAxis_eq_some.1 haxis
  cases hpin : pin.scope <;> rw [hpin] at hscope <;> cases hscope

theorem holds_of_wide (h : s.wide a = true) : s.holds a = true := by
  obtain ⟨axis, haxis, -⟩ := wide_iff.1 h
  exact holds_iff.2 ⟨axis, haxis⟩

theorem recordedAxis_eq (h : ¬ s.InReverse a) :
    s.recordedAxis a =
      if s.holds a then some (if s.wide a then .any else .owned) else none := by
  have hrole := roleAxis_applies h
  have hpin := pinAxis_applies s a
  unfold recordedAxis holds wide
  cases hr : s.roleAxis a with
  | none =>
    cases hp : s.pinAxis a with
    | none => rfl
    | some y => cases y <;> simp_all [widen]
  | some x =>
    cases hp : s.pinAxis a with
    | none => cases x <;> simp_all
    | some y => cases x <;> cases y <;> simp_all [widen, scopeCovers]

theorem coversAction_iff_keeps (hold : ¬ old.InReverse a) (hnew : ¬ new.InReverse a) :
    CoversAction new old a ↔ Keeps old new a := by
  unfold CoversAction
  rw [recordedAxis_eq hold, recordedAxis_eq hnew]
  constructor
  · intro h
    have hheld : old.holds a = true → ∃ y,
        (if new.holds a then some (if new.wide a then RoleScope.any else .owned) else none) =
          some y ∧ scopeCovers y (if old.wide a then .any else .owned) = true :=
      fun hholds => (h _ (if_pos hholds)).1
    refine ⟨fun hholds => ?_, fun hwide => ?_, fun hholds => (h _ (if_pos hholds)).2⟩
    · obtain ⟨y, hy, -⟩ := hheld hholds
      by_contra hno
      rw [if_neg hno] at hy
      cases hy
    obtain ⟨y, hy, hcovers⟩ := hheld (holds_of_wide hwide)
    by_contra hno
    rw [if_neg hno] at hy
    rw [if_pos hwide] at hcovers
    split at hy <;> cases hy
    cases hcovers
  · intro h x hx
    split at hx <;> cases hx
    rename_i hholds
    refine ⟨⟨if new.wide a then .any else .owned, if_pos (h.held hholds), ?_⟩, h.paths hholds⟩
    by_cases hwide : old.wide a = true
    · rw [if_pos (h.wide hwide)]
      rfl
    · rw [if_neg hwide]
      split <;> rfl

theorem coversAction_iff_of_not_file (hfile : a.isFile = false) :
    CoversAction new old a ↔ ∀ x, old.recordedAxis a = some x →
      new.recordedAxis a = some .any ∨ new.recordedAxis a = some x := by
  unfold CoversAction
  rw [limit_of_not_file hfile]
  refine forall_congr' fun x => imp_congr_right fun _ => ?_
  constructor
  · rintro ⟨⟨y, hy, hcovers⟩, -⟩
    simp only [scopeCovers, Bool.or_eq_true, decide_eq_true_eq] at hcovers
    rcases hcovers with rfl | rfl
    · exact .inl hy
    · exact .inr hy
  · rintro (h | h)
    · exact ⟨⟨_, h, rfl⟩, rfl⟩
    · exact ⟨⟨_, h, by simp [scopeCovers]⟩, rfl⟩

theorem InReverse.holds (h : s.InReverse a) : s.holds a = true :=
  holds_iff.2 ⟨_, .inl h.roleAxis⟩

theorem InReverse.wide (h : s.InReverse a) : s.wide a = true :=
  wide_iff.2 ⟨_, .inl h.roleAxis, nofun⟩

theorem InReverse.keeps (h : new.InReverse a) (old : Standing) : Keeps old new a where
  held := fun _ => h.holds
  wide := fun _ => h.wide
  paths := fun _ => by
    rw [limit_of_not_file (not_file_of_reverse h.2)]
    rfl

/-- An action that the role `reverse` granted to everybody is recorded as granted for the
owner, because the pin granted it so, and that is all the new standing grants. -/
def NarrowBoth (old new : Standing) (a : Action) : Prop :=
  new.holds a = true ∧ new.wide a = false ∧ old.pinAxis a = some .owned

theorem InReverse.keeps_iff (hold : old.InReverse a) : Keeps old new a ↔ new.wide a = true := by
  constructor
  · exact fun h => h.wide hold.wide
  intro h
  refine ⟨fun _ => holds_of_wide h, fun _ => h, fun _ => ?_⟩
  rw [limit_of_not_file (not_file_of_reverse hold.2)]
  rfl

theorem InReverse.coversAction_iff (hold : old.InReverse a) (hnew : ¬ new.InReverse a) :
    CoversAction new old a ↔ new.wide a = true ∨ NarrowBoth old new a := by
  have hwide : new.wide a = true → new.holds a = true := holds_of_wide
  rw [coversAction_iff_of_not_file (not_file_of_reverse hold.2), recordedAxis_eq hnew]
  unfold recordedAxis NarrowBoth
  rw [hold.roleAxis]
  cases hp : old.pinAxis a with
  | none => cases hh : new.holds a <;> cases hw : new.wide a <;> simp_all
  | some y =>
    cases y <;> cases hh : new.holds a <;> cases hw : new.wide a <;>
      simp_all [widen, scopeCovers]

/-- Every action other than the two of `reverse` is kept, and one of these is misjudged:
the new standing has it from the role and the recorded axis is another one, or the old
standing had it from the role for everybody and both record the axis of the owner. -/
def AxisSlip (old new : Standing) : Prop :=
  (∀ a, a ∉ (roleGrant .reverse).actions → Keeps old new a) ∧
    ((∃ a, new.InReverse a ∧ ∃ x, old.recordedAxis a = some x ∧
        new.recordedAxis a ≠ some .any ∧ new.recordedAxis a ≠ some x) ∨
      (new.role ≠ some .reverse ∧
        (∀ a, old.InReverse a → new.wide a = true ∨ NarrowBoth old new a) ∧
        ∃ a, old.InReverse a ∧ NarrowBoth old new a))

section Compare

variable (hothers : ∀ a, a ∉ (roleGrant .reverse).actions →
  (CoversAction new old a ↔ Keeps old new a))

include hothers

theorem compare_new_reverse (hnew : new.role = some .reverse) :
    ((∀ a, CoversAction new old a) ↔ ∀ a, Keeps old new a) ↔ ¬ AxisSlip old new := by
  have hkeeps : (∀ a, a ∉ (roleGrant .reverse).actions → Keeps old new a) →
      ∀ a, Keeps old new a := by
    intro h a
    by_cases ha : a ∈ (roleGrant .reverse).actions
    · exact InReverse.keeps ⟨hnew, ha⟩ old
    · exact h a ha
  constructor
  · rintro h ⟨hkept, ⟨a, ha, x, hx, hany, hne⟩ | ⟨hrole, -⟩⟩
    · have hcovers := h.2 (hkeeps hkept) a
      rw [coversAction_iff_of_not_file (not_file_of_reverse ha.2)] at hcovers
      exact (hcovers x hx).elim hany hne
    · exact hrole hnew
  intro hslip
  refine ⟨fun hcovers => hkeeps fun a ha => (hothers a ha).1 (hcovers a), fun hkept a => ?_⟩
  by_cases ha : a ∈ (roleGrant .reverse).actions
  · rw [coversAction_iff_of_not_file (not_file_of_reverse ha)]
    intro x hx
    by_contra hno
    rw [not_or] at hno
    exact hslip ⟨fun b _ => hkept b, .inl ⟨a, ⟨hnew, ha⟩, x, hx, hno.1, hno.2⟩⟩
  · exact (hothers a ha).2 (hkept a)

theorem compare_old_reverse (hnew : new.role ≠ some .reverse) (hold : old.role = some .reverse) :
    ((∀ a, CoversAction new old a) ↔ ∀ a, Keeps old new a) ↔ ¬ AxisSlip old new := by
  have hjudged : ∀ {a}, old.InReverse a →
      (CoversAction new old a ↔ new.wide a = true ∨ NarrowBoth old new a) :=
    fun ha => ha.coversAction_iff fun h => hnew h.1
  constructor
  · rintro h ⟨hkept, ⟨a, ha, -⟩ | ⟨-, hall, a, ha, hnarrow⟩⟩
    · exact hnew ha.1
    have hcovers : ∀ b, CoversAction new old b := by
      intro b
      by_cases hb : b ∈ (roleGrant .reverse).actions
      · exact (hjudged ⟨hold, hb⟩).2 (hall b ⟨hold, hb⟩)
      · exact (hothers b hb).2 (hkept b hb)
    have hwide := ha.keeps_iff.1 (h.1 hcovers a)
    rw [hnarrow.2.1] at hwide
    cases hwide
  intro hslip
  constructor
  · intro hcovers a
    by_cases ha : a ∈ (roleGrant .reverse).actions
    · rcases (hjudged ⟨hold, ha⟩).1 (hcovers a) with hwide | hnarrow
      · exact InReverse.keeps_iff ⟨hold, ha⟩ |>.2 hwide
      · refine absurd ⟨fun b hb => (hothers b hb).1 (hcovers b), .inr ⟨hnew, ?_⟩⟩ hslip
        exact ⟨fun b hb => (hjudged hb).1 (hcovers b), a, ⟨hold, ha⟩, hnarrow⟩
    · exact (hothers a ha).1 (hcovers a)
  · intro hkept a
    by_cases ha : a ∈ (roleGrant .reverse).actions
    · exact (hjudged ⟨hold, ha⟩).2 (.inl (InReverse.keeps_iff ⟨hold, ha⟩ |>.1 (hkept a)))
    · exact (hothers a ha).2 (hkept a)

end Compare

/-- The summaries cover each other exactly if no request is lost, unless the axis that
does not apply is in the way. -/
theorem covers_iff_nothing_lost (name : String) (old new : Standing) :
    ((ofStanding new).covers (ofStanding old) = true ↔ NothingLost name old new) ↔
      ¬ AxisSlip old new := by
  rw [covers_iff, nothingLost_iff]
  have hothers : ∀ a, a ∉ (roleGrant .reverse).actions →
      (CoversAction new old a ↔ Keeps old new a) :=
    fun a ha => coversAction_iff_keeps (fun h => ha h.2) fun h => ha h.2
  by_cases hnew : new.role = some .reverse
  · exact compare_new_reverse hothers hnew
  by_cases hold : old.role = some .reverse
  · exact compare_old_reverse hothers hnew hold
  -- neither has an axis that does not apply
  have hagree : (∀ a, CoversAction new old a) ↔ ∀ a, Keeps old new a :=
    forall_congr' fun a => coversAction_iff_keeps (fun h => hold h.1) fun h => hnew h.1
  refine iff_of_true hagree ?_
  rintro ⟨-, ⟨a, ha, -⟩ | ⟨-, -, a, ha, -⟩⟩
  · exact hnew ha.1
  · exact hold ha.1

def reversePin (scope : Scope) : PinGrants where
  actions := [.hostReverse, .hostPunch]
  paths := none
  scope
  nonempty := cons_ne_nil _ _
  nodup := by decide
  allowed := by decide
  limited := rfl
  listed := by decide
  valid := by
    intro entries h
    cases h

/-- A connection is closed although nothing is lost when the grants of the pin give way to
the role, and is kept although requests are lost when the role is taken away. -/
theorem reverse_is_misjudged :
    (∃ old new : Standing, (ofStanding new).covers (ofStanding old) = false ∧
      ∀ name, NothingLost name old new) ∧
    ∃ old new : Standing, (ofStanding new).covers (ofStanding old) = true ∧
      ∀ name, ¬ NothingLost name old new := by
  constructor
  · refine ⟨⟨none, some (reversePin .any)⟩, ⟨some .reverse, none⟩, by decide, fun name => ?_⟩
    refine nothingLost_iff.2 fun a => ?_
    cases a <;> constructor <;> decide
  refine ⟨⟨some .reverse, some (reversePin .owned)⟩, ⟨none, some (reversePin .owned)⟩,
    by decide, fun name h => ?_⟩
  have hwide := (nothingLost_iff.1 h .hostReverse).wide (by decide)
  exact absurd hwide (by decide)

end Standing

end Qsh.Acl

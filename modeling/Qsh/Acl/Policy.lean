import Qsh.Acl.Paths

/-!
# The policy

`Policy::decide_standing` (`acl/policy.rs`) decides every request.  After the gate for
actions that are always denied come the role of the pin, the grants on the pin, and the
rows of `acl.toml`, the first of which that grants is reported.  `file_grant_basis` and
`effective_actions` summarise what a requester may do at all.

Names, owners and principals are strings.  A path is the list of its components, and how
a `paths` entry is normalised comes with the request.  Components are compared exactly,
as on every platform but Windows.
-/

namespace Qsh.Acl

open List Option

inductive Action where
  | execRun
  | sessionOpen
  | sessionList
  | sessionAttach
  | sessionControl
  | hostReverse
  | forwardLocal
  | forwardRemote
  | forwardSocks
  | fileRead
  | fileWrite
  | hostPunch
  deriving DecidableEq

namespace Action

def all : List Action :=
  [.execRun, .sessionOpen, .sessionList, .sessionAttach, .sessionControl, .hostReverse,
    .forwardLocal, .forwardRemote, .forwardSocks, .fileRead, .fileWrite, .hostPunch]

def asStr : Action → String
  | .execRun => "exec.run"
  | .sessionOpen => "session.open"
  | .sessionList => "session.list"
  | .sessionAttach => "session.attach"
  | .sessionControl => "session.control"
  | .hostReverse => "host.reverse"
  | .forwardLocal => "forward.local"
  | .forwardRemote => "forward.remote"
  | .forwardSocks => "forward.socks"
  | .fileRead => "file.read"
  | .fileWrite => "file.write"
  | .hostPunch => "host.punch"

def isAlwaysDenied : Action → Bool
  | .forwardSocks => true
  | _ => false

def isFile : Action → Bool
  | .fileRead => true
  | .fileWrite => true
  | _ => false

theorem mem_all (a : Action) : a ∈ all := by
  cases a <;> decide

end Action

/-- How the peer was authenticated. -/
inductive AuthPath where
  | pin
  | ca
  | pairing
  deriving DecidableEq

def AuthPath.debug : AuthPath → String
  | .pin => "Pin"
  | .ca => "Ca"
  | .pairing => "Pairing"

inductive Principal where
  | device (name : String)
  | user (name : String)
  | fingerprint (fp : String)
  | pairing
  deriving DecidableEq

namespace Principal

def toString : Principal → String
  | .device name => "device:" ++ name
  | .user name => "user:" ++ name
  | .fingerprint fp => "fp:" ++ fp
  | .pairing => "pairing"

def isDevice : Principal → Bool
  | .device _ => true
  | _ => false

end Principal

/-- The key under which a session records its opener. -/
def openerKey (principal : Principal) (authPath : AuthPath) : String :=
  authPath.debug ++ ":" ++ principal.toString

structure CanonicalPath where
  path : List Text
  normalize : Text → Option (List Text)

/-- What an action is about. -/
structure ResourceRef where
  id : String
  owner : Option String
  canonicalPath : Option CanonicalPath

def ResourceRef.unowned (id : String) : ResourceRef where
  id
  owner := none
  canonicalPath := none

inductive Scope where
  | owned
  | any
  deriving DecidableEq

inductive RoleScope where
  | any
  | owned
  | notApplicable
  deriving DecidableEq

inductive TrustRole where
  | full
  | exec
  | tunnel
  | readOnly
  | reverse
  | none
  deriving DecidableEq

structure RoleGrant where
  actions : List Action
  scope : RoleScope

/-- The actions and the scope of each role. -/
def roleGrant : TrustRole → RoleGrant
  | .full =>
      { actions := [.execRun, .sessionOpen, .sessionList, .sessionAttach, .sessionControl,
          .forwardLocal, .forwardRemote, .fileRead, .fileWrite, .hostReverse, .hostPunch]
        scope := .any }
  | .exec =>
      { actions := [.execRun, .sessionOpen, .sessionList, .sessionAttach, .sessionControl,
          .hostPunch]
        scope := .any }
  | .tunnel => { actions := [.forwardLocal, .forwardRemote, .hostPunch], scope := .owned }
  | .readOnly => { actions := [.sessionList, .sessionAttach, .hostPunch], scope := .any }
  | .reverse => { actions := [.hostReverse, .hostPunch], scope := .notApplicable }
  | .none => { actions := [], scope := .notApplicable }

/-- `PinGrants`: never empty, never an action that is always denied, with `paths`
exactly when there is a file action, and with no entry that fails the check. -/
structure PinGrants where
  actions : List Action
  paths : Option (List Text)
  scope : Scope
  nonempty : actions ≠ []
  nodup : actions.Nodup
  allowed : ∀ a ∈ actions, a.isAlwaysDenied = false
  limited : paths.isSome = actions.any Action.isFile
  listed : paths ≠ some []
  valid : ∀ entries, paths = some entries → ∀ entry ∈ entries, validateEntry entry = .ok ()
  deriving DecidableEq

/-- What the trust store says of a device. -/
structure Standing where
  role : Option TrustRole
  pin : Option PinGrants
  deriving DecidableEq

structure FamilyPrefix where
  text : String
  dotted : text.toList.getLast? = some '.'
  stem : 1 < text.length

inductive ActionPattern where
  | exact (action : Action)
  | family (stem : FamilyPrefix)

def ActionPattern.covers (pattern : ActionPattern) (action : Action) : Bool :=
  match pattern with
  | .exact a => a = action
  | .family stem => stem.text.toList.isPrefixOf action.asStr.toList

structure Rule where
  principal : String
  authPath : AuthPath
  allow : List ActionPattern
  scope : Scope
  paths : Option (List Text)

inductive Decision where
  | allow
  | deny
  deriving DecidableEq

/-- A decision with the row, role or pin grant it rests on. -/
structure Verdict where
  decision : Decision
  rule : Option Nat
  role : Option TrustRole
  pinGrant : Bool
  deriving DecidableEq

namespace Verdict

def DENY : Verdict := ⟨.deny, none, none, false⟩

def isAllow (v : Verdict) : Bool := v.decision = .allow

end Verdict

/-! ## The stages -/

def entriesCover (entries : List Text) (request : CanonicalPath) : Bool :=
  entries.any fun entry => (request.normalize entry).any fun root => root.isPrefixOf request.path

/-- A path limit covers a request with a path below one of its entries. -/
def pathsCover (paths : Option (List Text)) (resource : ResourceRef) : Bool :=
  match paths, resource.canonicalPath with
  | some entries, some request => entriesCover entries request
  | _, _ => false

def scopeOk (scope : Scope) (owner : Option String) (key : String) : Bool :=
  match scope, owner with
  | .any, _ => true
  | .owned, none => true
  | .owned, some owner => owner = key

def roleScopeOk (scope : RoleScope) (owner : Option String) (key : String) : Bool :=
  match scope, owner with
  | .owned, some owner => owner = key
  | _, _ => true

/-- A role counts for a pinned device only. -/
def roleCovers (principal : Principal) (authPath : AuthPath) (role : TrustRole)
    (action : Action) : Bool :=
  authPath = .pin && principal.isDevice && (roleGrant role).actions.contains action

def pinCovers (principal : Principal) (authPath : AuthPath) (pin : PinGrants)
    (action : Action) : Bool :=
  authPath = .pin && principal.isDevice && !action.isAlwaysDenied && pin.actions.contains action

def ruleSelects (rule : Rule) (principal : Principal) (authPath : AuthPath) : Bool :=
  rule.principal = principal.toString && rule.authPath = authPath

def ruleCovers (rule : Rule) (action : Action) : Bool :=
  rule.allow.any fun pattern => pattern.covers action

/-- Whether a row of the policy allows the request. -/
def ruleGrants (principal : Principal) (authPath : AuthPath) (action : Action)
    (resource : ResourceRef) (rule : Rule) : Bool :=
  ruleSelects rule principal authPath && ruleCovers rule action &&
    (!action.isFile || pathsCover rule.paths resource) &&
    scopeOk rule.scope resource.owner (openerKey principal authPath)

def roleGrants (principal : Principal) (authPath : AuthPath) (action : Action)
    (resource : ResourceRef) (role : TrustRole) : Bool :=
  roleCovers principal authPath role action &&
    roleScopeOk (roleGrant role).scope resource.owner (openerKey principal authPath)

def pinGrantsRequest (principal : Principal) (authPath : AuthPath) (action : Action)
    (resource : ResourceRef) (pin : PinGrants) : Bool :=
  pinCovers principal authPath pin action &&
    (scopeOk pin.scope resource.owner (openerKey principal authPath) &&
      (!action.isFile || pathsCover pin.paths resource))

structure Policy where
  rules : List Rule

namespace Policy

/-- The first row that grants the request, or `DENY`. -/
def decideRows (p : Policy) (principal : Principal) (authPath : AuthPath) (action : Action)
    (resource : ResourceRef) : Verdict :=
  match p.rules.findIdx? (ruleGrants principal authPath action resource) with
  | some index => ⟨.allow, some index, none, false⟩
  | none => Verdict.DENY

/-- Asks the role, then the pin grants, then the rows. -/
def decideStanding (p : Policy) (principal : Principal) (authPath : AuthPath)
    (standing : Standing) (action : Action) (resource : ResourceRef) : Verdict :=
  if action.isAlwaysDenied then Verdict.DENY
  else
    match standing.role.filter (roleGrants principal authPath action resource) with
    | some role => ⟨.allow, none, some role, false⟩
    | none =>
        match standing.pin.filter (pinGrantsRequest principal authPath action resource) with
        | some _ => ⟨.allow, none, none, true⟩
        | none => p.decideRows principal authPath action resource

def fileGrantBasis (p : Policy) (principal : Principal) (authPath : AuthPath)
    (standing : Standing) (action : Action) : Bool :=
  standing.role.any (fun role => roleCovers principal authPath role action) ||
    standing.pin.any (fun pin => pinCovers principal authPath pin action) ||
    p.rules.any fun rule =>
      ruleSelects rule principal authPath && ruleCovers rule action && rule.paths.isSome

/-- The actions allowed on an unowned resource, or for files on some path. -/
def effectiveActions (p : Policy) (principal : Principal) (authPath : AuthPath)
    (standing : Standing) : List Action :=
  Action.all.filter fun action =>
    if action.isFile then p.fileGrantBasis principal authPath standing action
    else (p.decideStanding principal authPath standing action (ResourceRef.unowned "")).isAllow

/-! ## What an allow rests on -/

variable {p : Policy} {principal : Principal} {authPath : AuthPath} {standing : Standing}
  {action : Action} {resource : ResourceRef}

theorem any_of_filter {α : Type} {o : Option α} {f : α → Bool} (h : o.filter f = none) :
    o.any f = false := by
  cases o with
  | none => rfl
  | some x => simpa using h

variable (p principal authPath standing action resource) in
/-- How `decide_standing` comes to its verdict. -/
inductive Decided : Verdict → Prop
  | always (h : action.isAlwaysDenied = true) : Decided .DENY
  | role {role : TrustRole} (hopen : action.isAlwaysDenied = false)
      (hrole : standing.role = some role)
      (h : roleGrants principal authPath action resource role = true) :
      Decided ⟨.allow, none, some role, false⟩
  | pin {pin : PinGrants} (hopen : action.isAlwaysDenied = false)
      (hpin : standing.pin = some pin)
      (h : pinGrantsRequest principal authPath action resource pin = true) :
      Decided ⟨.allow, none, none, true⟩
  | row {index : Nat} {rule : Rule} (hopen : action.isAlwaysDenied = false)
      (hrule : p.rules[index]? = some rule)
      (h : ruleGrants principal authPath action resource rule = true)
      (hfirst : ∀ j rule', j < index → p.rules[j]? = some rule' →
        ruleGrants principal authPath action resource rule' = false) :
      Decided ⟨.allow, some index, none, false⟩
  | nothing (hrole : standing.role.any (roleGrants principal authPath action resource) = false)
      (hpin : standing.pin.any (pinGrantsRequest principal authPath action resource) = false)
      (hrows : p.rules.any (ruleGrants principal authPath action resource) = false) :
      Decided .DENY

theorem decided : Decided p principal authPath standing action resource
    (p.decideStanding principal authPath standing action resource) := by
  unfold decideStanding decideRows
  split
  · exact .always ‹_›
  rename_i hopen
  rw [Bool.not_eq_true] at hopen
  split
  · rename_i role hrole
    obtain ⟨hrole, hgrants⟩ := filter_eq_some_iff.1 hrole
    exact .role hopen hrole hgrants
  rename_i hrole
  split
  · rename_i pin hpin
    obtain ⟨hpin, hgrants⟩ := filter_eq_some_iff.1 hpin
    exact .pin hopen hpin hgrants
  rename_i hpin
  split
  · rename_i index hindex
    obtain ⟨hlt, hgrants, hfirst⟩ := findIdx?_eq_some_iff_getElem.1 hindex
    refine .row hopen (getElem?_eq_getElem hlt) hgrants fun j rule' hj hrule => ?_
    obtain ⟨hjlt, rfl⟩ := List.getElem?_eq_some_iff.1 hrule
    simpa using hfirst j hj
  · rename_i hindex
    exact .nothing (any_of_filter hrole) (any_of_filter hpin)
      (List.any_eq_false.2 (by simpa using hindex))

theorem isAllow_iff :
    (p.decideStanding principal authPath standing action resource).isAllow = true ↔
      action.isAlwaysDenied = false ∧
        (standing.role.any (roleGrants principal authPath action resource) = true ∨
          standing.pin.any (pinGrantsRequest principal authPath action resource) = true ∨
          p.rules.any (ruleGrants principal authPath action resource) = true) := by
  generalize hv : p.decideStanding principal authPath standing action resource = v
  cases hv ▸ decided with
  | always h => simp [Verdict.DENY, Verdict.isAllow, h]
  | role hopen hrole h => simp [Verdict.isAllow, hopen, hrole, h]
  | pin hopen hpin h => simp [Verdict.isAllow, hopen, hpin, h]
  | row hopen hrule h hfirst =>
    have hrows := List.any_eq_true.2 ⟨_, mem_of_getElem? hrule, h⟩
    simp only [Verdict.isAllow, hopen, hrows, or_true, and_self, decide_true]
  | nothing hrole hpin hrows => simp [Verdict.DENY, Verdict.isAllow, hrole, hpin, hrows]

theorem decision_congr {v w : Verdict} (h : v.isAllow = true ↔ w.isAllow = true) :
    v.decision = w.decision := by
  unfold Verdict.isAllow at h
  cases hv : v.decision <;> cases hw : w.decision <;> simp_all

/-! ## The requester -/

theorem decideStanding_of_not_pinned (h : ¬(authPath = .pin ∧ principal.isDevice = true))
    (standing standing' : Standing) :
    p.decideStanding principal authPath standing action resource =
      p.decideStanding principal authPath standing' action resource := by
  have hrole : roleGrants principal authPath action resource = fun _ => false := by
    funext role
    simp only [roleGrants, roleCovers]
    grind
  have hpin : pinGrantsRequest principal authPath action resource = fun _ => false := by
    funext pin
    simp only [pinGrantsRequest, pinCovers]
    grind
  simp [decideStanding, hrole, hpin]

/-! ## The summaries -/

theorem scopeOk_none (scope : Scope) (key : String) : scopeOk scope none key = true := by
  cases scope <;> rfl

theorem roleScopeOk_none (scope : RoleScope) (key : String) :
    roleScopeOk scope none key = true := by
  cases scope <;> rfl

section

variable (h : (p.decideStanding principal authPath standing action resource).isAllow = true)
include h

/-- What is allowed on some resource is allowed on one without owner, for an action
that is not about files. -/
theorem isAllow_unowned (hfile : action.isFile = false) (id : String) :
    (p.decideStanding principal authPath standing action (ResourceRef.unowned id)).isAllow =
      true := by
  rw [isAllow_iff] at h ⊢
  refine ⟨h.1, ?_⟩
  rcases h.2 with hrole | hpin | hrow
  · left
    obtain ⟨role, hsome, hgrants⟩ := (Option.any_eq_true _ _).1 hrole
    simp only [roleGrants, Bool.and_eq_true] at hgrants
    simp [hsome, roleGrants, hgrants.1, ResourceRef.unowned, roleScopeOk_none]
  · right; left
    obtain ⟨pin, hsome, hgrants⟩ := (Option.any_eq_true _ _).1 hpin
    simp only [pinGrantsRequest, Bool.and_eq_true] at hgrants
    simp [hsome, pinGrantsRequest, hgrants.1, ResourceRef.unowned, scopeOk_none, hfile]
  · right; right
    obtain ⟨rule, hrule, hgrants⟩ := List.any_eq_true.1 hrow
    simp only [ruleGrants, Bool.and_eq_true] at hgrants
    refine List.any_eq_true.2 ⟨rule, hrule, ?_⟩
    simp [ruleGrants, hgrants.1.1, ResourceRef.unowned, scopeOk_none, hfile]

theorem fileGrantBasis_of_allow (hfile : action.isFile = true) :
    p.fileGrantBasis principal authPath standing action = true := by
  simp only [fileGrantBasis, Bool.or_eq_true]
  rcases (isAllow_iff.1 h).2 with hrole | hpin | hrow
  · left; left
    obtain ⟨role, hsome, hgrants⟩ := (Option.any_eq_true _ _).1 hrole
    simp only [roleGrants, Bool.and_eq_true] at hgrants
    exact (Option.any_eq_true _ _).2 ⟨role, hsome, hgrants.1⟩
  · left; right
    obtain ⟨pin, hsome, hgrants⟩ := (Option.any_eq_true _ _).1 hpin
    simp only [pinGrantsRequest, Bool.and_eq_true] at hgrants
    exact (Option.any_eq_true _ _).2 ⟨pin, hsome, hgrants.1⟩
  right
  obtain ⟨rule, hrule, hgrants⟩ := List.any_eq_true.1 hrow
  simp only [ruleGrants, hfile, Bool.and_eq_true, Bool.not_true, Bool.false_or] at hgrants
  refine List.any_eq_true.2 ⟨rule, hrule, ?_⟩
  obtain ⟨⟨hselects, hpaths⟩, -⟩ := hgrants
  have hsome : rule.paths.isSome = true := by
    cases h : rule.paths with
    | none => simp [pathsCover, h] at hpaths
    | some entries => rfl
  simp [hselects, hsome]

theorem mem_effectiveActions : action ∈ p.effectiveActions principal authPath standing := by
  refine mem_filter.2 ⟨Action.mem_all action, ?_⟩
  cases hfile : action.isFile with
  | true => exact fileGrantBasis_of_allow h hfile
  | false => exact isAllow_unowned h hfile ""

end

/-! ## The ground of a request about files -/

def Covered (paths : Option (List Text)) (resource : ResourceRef) : Prop :=
  ∃ entries request entry root, paths = some entries ∧ resource.canonicalPath = some request ∧
    entry ∈ entries ∧ request.normalize entry = some root ∧ root <+: request.path

theorem covered_of_pathsCover {paths : Option (List Text)}
    (h : pathsCover paths resource = true) : Covered paths resource := by
  cases hpaths : paths with
  | none => simp [pathsCover, hpaths] at h
  | some entries =>
    cases hrequest : resource.canonicalPath with
    | none => simp [pathsCover, hpaths, hrequest] at h
    | some request =>
      simp only [pathsCover, hpaths, hrequest, entriesCover] at h
      obtain ⟨entry, hentry, hroot⟩ := List.any_eq_true.1 h
      obtain ⟨root, hnormal, hwithin⟩ := (Option.any_eq_true _ _).1 hroot
      exact ⟨entries, request, entry, root, rfl, hrequest, hentry, hnormal,
        List.isPrefixOf_iff_prefix.1 hwithin⟩

/-- What a verdict about files rests on: a role, or an entry of the pin or of the
reported row that covers the path. -/
def RestsOn (p : Policy) (standing : Standing) (resource : ResourceRef) (v : Verdict) : Prop :=
  (∃ role, standing.role = some role ∧ v = ⟨.allow, none, some role, false⟩) ∨
    (∃ pin, standing.pin = some pin ∧ v = ⟨.allow, none, none, true⟩ ∧ Covered pin.paths resource) ∨
    ∃ index rule, p.rules[index]? = some rule ∧ v = ⟨.allow, some index, none, false⟩ ∧
      Covered rule.paths resource

theorem restsOn_of_allow (hfile : action.isFile = true)
    (h : (p.decideStanding principal authPath standing action resource).isAllow = true) :
    RestsOn p standing resource (p.decideStanding principal authPath standing action resource) := by
  generalize hv : p.decideStanding principal authPath standing action resource = v at h ⊢
  cases hv ▸ decided with
  | always => cases h
  | role _ hrole => exact .inl ⟨_, hrole, rfl⟩
  | pin _ hpin hgrants =>
    simp only [pinGrantsRequest, hfile, Bool.and_eq_true, Bool.not_true, Bool.false_or] at hgrants
    exact .inr (.inl ⟨_, hpin, rfl, covered_of_pathsCover hgrants.2.2⟩)
  | row _ hrule hgrants =>
    simp only [ruleGrants, hfile, Bool.and_eq_true, Bool.not_true, Bool.false_or] at hgrants
    exact .inr (.inr ⟨_, _, hrule, rfl, covered_of_pathsCover hgrants.1.2⟩)
  | nothing => cases h

/-! ## The rows -/

theorem decision_delete {before after : List Rule} {rule : Rule}
    (h : ruleSelects rule principal authPath = false) :
    (decideStanding ⟨before ++ rule :: after⟩ principal authPath standing action
        resource).decision =
      (decideStanding ⟨before ++ after⟩ principal authPath standing action resource).decision := by
  have hgrants : ruleGrants principal authPath action resource rule = false := by
    simp [ruleGrants, h]
  refine decision_congr ?_
  rw [isAllow_iff, isAllow_iff]
  simp [hgrants]

theorem decideStanding_append (more : List Rule)
    (h : (p.decideStanding principal authPath standing action resource).isAllow = true) :
    decideStanding ⟨p.rules ++ more⟩ principal authPath standing action resource =
      p.decideStanding principal authPath standing action resource := by
  unfold decideStanding at h ⊢
  split
  · rfl
  rename_i hdenied
  rw [if_neg hdenied] at h
  split
  · rfl
  rename_i hrole
  rw [hrole] at h
  split
  · rfl
  rename_i hpin
  rw [hpin] at h
  unfold decideRows at h ⊢
  cases hidx : p.rules.findIdx? (ruleGrants principal authPath action resource) with
  | none =>
    simp only [hidx] at h
    cases h
  | some index => simp [findIdx?_append, hidx]

theorem reported_row {index : Nat}
    (h : (p.decideStanding principal authPath standing action resource).rule = some index) :
    ∃ rule, p.rules[index]? = some rule ∧
      ruleGrants principal authPath action resource rule = true ∧
      ∀ j rule', j < index → p.rules[j]? = some rule' →
        ruleGrants principal authPath action resource rule' = false := by
  generalize hv : p.decideStanding principal authPath standing action resource = v at h
  cases hv ▸ decided with
  | always | role | pin | nothing => cases h
  | row _ hrule hgrants hfirst =>
    cases h
    exact ⟨_, hrule, hgrants, hfirst⟩

/-! ## Soundness and isolation -/

/-- For every policy, requester, action and resource.  An allow is of an action that
is not always denied and that the summary lists, and for an action about files it
rests on a role or on an entry that covers the path.  The standing counts only for a
pinned device.  A row for another requester can go without changing the decision,
rows after the others change no allow and nothing it rests on, and the row that is
reported is the first that grants the request. -/
theorem policy_sound_and_isolated (p : Policy) (principal : Principal) (authPath : AuthPath)
    (standing : Standing) (action : Action) (resource : ResourceRef) :
    ((p.decideStanding principal authPath standing action resource).isAllow = true →
        action.isAlwaysDenied = false ∧
        action ∈ p.effectiveActions principal authPath standing ∧
        (action.isFile = true → p.fileGrantBasis principal authPath standing action = true ∧
          RestsOn p standing resource
            (p.decideStanding principal authPath standing action resource))) ∧
      (¬(authPath = .pin ∧ principal.isDevice = true) → ∀ standing',
        p.decideStanding principal authPath standing' action resource =
          p.decideStanding principal authPath standing action resource) ∧
      (∀ before rule after, p.rules = before ++ rule :: after →
        (rule.principal ≠ principal.toString ∨ rule.authPath ≠ authPath) →
        (decideStanding ⟨before ++ after⟩ principal authPath standing action resource).decision =
          (p.decideStanding principal authPath standing action resource).decision) ∧
      (∀ more, (p.decideStanding principal authPath standing action resource).isAllow = true →
        decideStanding ⟨p.rules ++ more⟩ principal authPath standing action resource =
          p.decideStanding principal authPath standing action resource) ∧
      ∀ index, (p.decideStanding principal authPath standing action resource).rule = some index →
        ∃ rule, p.rules[index]? = some rule ∧
          ruleGrants principal authPath action resource rule = true ∧
          ∀ j rule', j < index → p.rules[j]? = some rule' →
            ruleGrants principal authPath action resource rule' = false := by
  refine ⟨?_, ?_, ?_, ?_, fun index h => reported_row h⟩
  · intro h
    exact ⟨(isAllow_iff.1 h).1, mem_effectiveActions h,
      fun hfile => ⟨fileGrantBasis_of_allow h hfile, restsOn_of_allow hfile h⟩⟩
  · exact fun hother standing' => decideStanding_of_not_pinned hother standing' standing
  · intro before rule after hrules hother
    have hselects : ruleSelects rule principal authPath = false := by
      rcases hother with h | h <;> simp [ruleSelects, h]
    have hp : p = ⟨before ++ rule :: after⟩ := by rw [← hrules]
    rw [hp]
    exact (decision_delete hselects).symm
  · intro more h
    exact decideStanding_append more h

def rowFor (name : String) (action : Action) : Rule where
  principal := "device:" ++ name
  authPath := .pin
  allow := [.exact action]
  scope := .any
  paths := none

/-- The second row grants the request: the action is in the summary, and the row is
reported as the first that grants it. -/
theorem policy_sound_and_isolated_secondRow :
    let p : Policy := ⟨[rowFor "desk" .sessionList, rowFor "laptop" .sessionList]⟩
    let request := p.decideStanding (.device "laptop") .pin ⟨none, none⟩ .sessionList
      (ResourceRef.unowned "s")
    request.rule = some 1 ∧
      Action.sessionList ∈ p.effectiveActions (.device "laptop") .pin ⟨none, none⟩ ∧
      ∃ rule, p.rules[1]? = some rule ∧
        ruleGrants (.device "laptop") .pin .sessionList (ResourceRef.unowned "s") rule = true := by
  intro p request
  have hrule : request.rule = some 1 := by decide
  have hsound := policy_sound_and_isolated p (.device "laptop") .pin ⟨none, none⟩ .sessionList
    (ResourceRef.unowned "s")
  obtain ⟨rule, hrow, hgrants, -⟩ := hsound.2.2.2.2 1 hrule
  exact ⟨hrule, (hsound.1 (by decide)).2.1, rule, hrow, hgrants⟩

end Policy

end Qsh.Acl

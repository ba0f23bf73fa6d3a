import MailServer.Lib.Except
import MailServer.Utils.HashMap

/-!
# Permissions of accounts (`common/src/auth/permissions.rs`, `common/src/auth/access_token.rs`)

The set of permissions is a parameter, and so are those of `DefaultPermissions` for users.

* `effectivePermissions`: the permissions of an account, from its own and those of its roles, within those of its tenant.
* `canSetPermissions`: whether somebody may give them.  `buildAccessToken`: the scopes that the account gets.
* `scope_subset`: what somebody may give is what the account gets.
-/

namespace MailServer.Common.Permissions

open MailServer.Utils MailServer.Lib List

abbrev Id := UInt64

/-- `document_id`, `id() as u32`. -/
def documentId (id : Id) : UInt32 := id.toUInt32

variable {P A : Type}

/-! ## Objects -/

structure PermissionsList (P : Type) where
  enabledPermissions : List P
  disabledPermissions : List P

/-- `structs::Permissions` -/
inductive OwnPermissions (P : Type) where
  | inherit
  | merge (permissions : PermissionsList P)
  | replace (permissions : PermissionsList P)

structure Role (P : Type) where
  enabledPermissions : List P
  disabledPermissions : List P
  roleIds : List Id

inductive Roles where
  | default
  | custom (roleIds : List Id)

def Roles.roleIds : Roles → Option (List Id)
  | .default => none
  | .custom roleIds => some roleIds

inductive UserRoles where
  | user | admin
  | custom (roleIds : List Id)

structure Tenant (P : Type) where
  roles : Roles
  permissions : OwnPermissions P

inductive CredentialPermissions (P : Type) where
  | inherit
  | disable (permissions : List P)
  | replace (permissions : List P)

/-- `SecondaryCredential`: an API key or an app password. -/
structure SecondaryCredential (P A : Type) where
  credentialId : Id
  expiresAt : Option ℕ
  permissions : CredentialPermissions P
  allowedIps : List A

inductive Credential (P A : Type) where
  | password (expiresAt : Option ℕ) (allowedIps : List A)
  | apiKey (credential : SecondaryCredential P A)
  | appPassword (credential : SecondaryCredential P A)

structure UserAccount (P A : Type) where
  credentials : List (Credential P A)
  memberGroupIds : List Id
  memberTenantId : Option Id
  roles : UserRoles
  permissions : OwnPermissions P

structure GroupAccount (P : Type) where
  memberTenantId : Option Id
  roles : Roles
  permissions : OwnPermissions P

inductive Account (P A : Type) where
  | user (account : UserAccount P A)
  | group (account : GroupAccount P)

/-! ## Groups of permissions -/

structure PermissionsGroup (P : Type) where
  enabled : Finset P
  disabled : Finset P
  merge : Bool

open PermissionsGroup

namespace PermissionsGroup

variable [DecidableEq P]

def empty : PermissionsGroup P := ⟨∅, ∅, false⟩

/-- `PermissionsGroup::from` -/
def ofList (l : PermissionsList P) : PermissionsGroup P :=
  ⟨l.enabledPermissions.toFinset, l.disabledPermissions.toFinset, false⟩

def union (g other : PermissionsGroup P) : PermissionsGroup P :=
  { g with enabled := g.enabled ∪ other.enabled, disabled := g.disabled ∪ other.disabled }

def restrict (g other : PermissionsGroup P) : PermissionsGroup P :=
  { g with enabled := g.enabled ∩ other.enabled, disabled := g.disabled ∪ other.disabled }

def finalize (g : PermissionsGroup P) : Finset P := g.enabled \ g.disabled

theorem finalize_restrict_subset (g other : PermissionsGroup P) : (g.restrict other).finalize ⊆ other.finalize := by
  intro p hp
  obtain ⟨henabled, hdisabled⟩ := Finset.mem_sdiff.mp hp
  refine Finset.mem_sdiff.mpr ⟨(Finset.mem_inter.mp henabled).2, fun h => hdisabled ?_⟩
  exact Finset.mem_union_right _ h

end PermissionsGroup

/-! ## Roles and tenants -/

structure RoleCache (P : Type) where
  idRoles : List UInt32
  permissions : PermissionsGroup P

structure TenantCache (P : Type) where
  idRoles : List UInt32
  permissions : Option (PermissionsGroup P)

/-- The registry and the configuration. -/
structure Server (P : Type) where
  roles : HashMap UInt32 (Role P)
  tenants : HashMap UInt32 (Tenant P)
  defaultRoleIdsUser : List Id
  defaultRoleIdsGroup : List Id
  defaultRoleIdsTenant : List Id
  defaultRoleIdsAdmin : List Id
  isEnterpriseEdition : Bool
  /-- `DefaultPermissions::default().user` -/
  defaultUser : List P

open Server

inductive AuthError where
  | roleNotFound (id : UInt32)
  | tenantNotFound (id : UInt32)
  deriving DecidableEq

namespace Server

variable [DecidableEq P] (server : Server P)

def role (id : UInt32) : Except AuthError (RoleCache P) :=
  match server.roles[id]? with
  | none => .error (.roleNotFound id)
  | some role => .ok
    { idRoles := role.roleIds.map documentId
      permissions := ⟨role.enabledPermissions.toFinset, role.disabledPermissions.toFinset, false⟩ }

def tenant (id : UInt32) : Except AuthError (TenantCache P) :=
  match server.tenants[id]? with
  | none => .error (.tenantNotFound id)
  | some tenant => .ok
    { idRoles := (tenant.roles.roleIds.getD server.defaultRoleIdsTenant).map documentId
      permissions := match tenant.permissions with
        | .inherit => none
        | .merge permissions => some { ofList permissions with merge := true }
        | .replace permissions => some { ofList permissions with merge := false } }

/-- Roles that have not been fetched. -/
def unfetched (fetched : List UInt32) : List UInt32 := server.roles.keys.filter fun id => id ∉ fetched

theorem unfetched_lt {id : UInt32} {fetched : List UInt32} {role : RoleCache P} (hnew : id ∉ fetched)
    (hrole : server.role id = .ok role) : (server.unfetched (id :: fetched)).length < (server.unfetched fetched).length := by
  have hkey : id ∈ server.roles.keys := by
    unfold Server.role at hrole
    cases hr : server.roles[id]? with
    | none => rw [hr] at hrole; cases hrole
    | some r => exact Std.TreeMap.mem_keys.mpr (Std.TreeMap.mem_iff_isSome_getElem?.mpr (by rw [hr]; rfl))
  have hsub : server.unfetched (id :: fetched) = (server.unfetched fetched).filter fun x => x ≠ id := by
    unfold unfetched
    simp [not_or]
  rw [hsub]
  refine length_filter_lt_length_iff_exists.mpr ⟨id, mem_filter.mpr ⟨hkey, decide_eq_true hnew⟩, ?_⟩
  simp

/-- The loop of `add_role_permissions`: `roleIds` is the stack, with its top first. -/
def addRoles (permissions : PermissionsGroup P) (fetched : List UInt32) (roleIds : List UInt32) :
    Except AuthError (PermissionsGroup P) :=
  match roleIds with
  | [] => .ok permissions
  | roleId :: roleIds =>
    if _hnew : roleId ∈ fetched then addRoles permissions fetched roleIds
    else match _hrole : server.role roleId with
      | .error e => .error e
      | .ok role => addRoles (permissions.union role.permissions) (roleId :: fetched) (role.idRoles.reverse ++ roleIds)
termination_by ((server.unfetched fetched).length, roleIds.length)
decreasing_by
  · exact Prod.Lex.right _ (Nat.lt_succ_self _)
  · exact Prod.Lex.left _ _ (server.unfetched_lt _hnew _hrole)

theorem addRoles_ok {g : PermissionsGroup P} {fetched roleIds : List UInt32} {roleId : UInt32} {role : RoleCache P}
    (hnew : roleId ∉ fetched) (hrole : server.role roleId = .ok role) : server.addRoles g fetched (roleId :: roleIds) =
      server.addRoles (g.union role.permissions) (roleId :: fetched) (role.idRoles.reverse ++ roleIds) := by
  rw [addRoles, dif_neg hnew]
  split
  · rename_i e he
    rw [hrole] at he
    cases he
  · rename_i role' he
    obtain rfl := Except.ok.inj (hrole.symm.trans he)
    rfl

def addRolePermissions (basePermissions : PermissionsGroup P) (roles : List UInt32) : Except AuthError (PermissionsGroup P) :=
  server.addRoles basePermissions [] roles.reverse

/-- A group with the permissions of roles, if there are any. -/
def withRoles (permissions : PermissionsGroup P) (roles : List UInt32) : Except AuthError (PermissionsGroup P) :=
  if roles.isEmpty then .ok permissions else server.addRolePermissions permissions roles

/-- The permissions of a tenant. -/
def tenantPermissions (tenantId : UInt32) : Except AuthError (PermissionsGroup P) := do
  let tenant ← server.tenant tenantId
  match tenant.permissions with
  | some permissions => server.withRoles permissions (if permissions.merge then tenant.idRoles else [])
  | none => server.withRoles .empty tenant.idRoles

/-- The permissions of an account before those of its tenant limit them. -/
def ownPermissions (permissions : OwnPermissions P) (roleIds : List Id) : Except AuthError (PermissionsGroup P) :=
  match permissions with
  | .inherit => server.withRoles .empty (roleIds.map documentId)
  | .merge permissions => server.withRoles (.ofList permissions) (roleIds.map documentId)
  | .replace permissions => server.withRoles (.ofList permissions) []

def effectivePermissions (permissions : OwnPermissions P) (roleIds : List Id) (tenantId : Option UInt32) :
    Except AuthError (PermissionsGroup P) := do
  let permissions ← server.ownPermissions permissions roleIds
  match tenantId with
  | none => pure permissions
  | some tenantId =>
    if server.isEnterpriseEdition then
      -- Limit tenant permissions
      let tenant ← server.tenantPermissions tenantId
      pure (permissions.restrict tenant)
    else
      -- Enterprise edition downgrade, remove any tenant administrator permissions
      pure (permissions.restrict { empty with enabled := server.defaultUser.toFinset })

end Server

/-! ## Access tokens -/

structure AccessScope (P A : Type) where
  permissions : Finset P
  credentialId : UInt32
  expiresAt : ℕ
  allowedIps : List A

structure AccessTokenInner (P A : Type) where
  accountId : UInt32
  tenantId : Option UInt32
  memberOf : List UInt32
  scopes : List (AccessScope P A)

structure AccessToken (P A : Type) where
  scopeIdx : ℕ
  inner : AccessTokenInner P A

def AccessToken.tenantId (t : AccessToken P A) : Option UInt32 := t.inner.tenantId

/-- A token has a scope, that of the account. -/
def AccessToken.permissionsBits (t : AccessToken P A) : Finset P :=
  match t.inner.scopes[t.scopeIdx]? with
  | some scope => scope.permissions
  | none => (t.inner.scopes.head?.map AccessScope.permissions).getD ∅

section

variable [DecidableEq P]

def AccessToken.canGrantPermissions (t : AccessToken P A) (requested : Finset P) : Bool :=
  requested \ t.permissionsBits = ∅

def U64_MAX : ℕ := 18446744073709551615

def U32_MAX : UInt32 := 4294967295

/-- The roles of an account; those of an administrator are other ones in a tenant. -/
def Server.roleIdsOf (server : Server P) (isTenant : Bool) : Account P A → List Id
  | .user account => match account.roles with
    | .user => server.defaultRoleIdsUser
    | .admin => if isTenant then server.defaultRoleIdsTenant else server.defaultRoleIdsAdmin
    | .custom roleIds => roleIds
  | .group account => account.roles.roleIds.getD server.defaultRoleIdsGroup

def Account.permissions : Account P A → OwnPermissions P
  | .user account => account.permissions
  | .group account => account.permissions

def Account.tenantId : Account P A → Option UInt32
  | .user account => account.memberTenantId.map documentId
  | .group account => account.memberTenantId.map documentId

def Server.canSetPermissions (server : Server P) (accessToken : AccessToken P A) (account : Account P A) :
    Except AuthError Bool := do
  -- the roles of an administrator are chosen by the tenant of who asks
  let permissions ← server.effectivePermissions account.permissions (server.roleIdsOf accessToken.tenantId.isSome account)
    account.tenantId
  pure (accessToken.canGrantPermissions permissions.finalize)

/-- The permissions of a credential, from those of the account. -/
def CredentialPermissions.scope (permissions : Finset P) : CredentialPermissions P → Finset P
  | .inherit => permissions
  | .disable list => permissions \ list.toFinset
  | .replace list => list.toFinset ∩ permissions

/-- One credential: a password sets the limits of the account's scope, others get a scope unless they have expired. -/
def addCredential (now : ℕ) (scopes : AccessScope P A × List (AccessScope P A)) :
    Credential P A → AccessScope P A × List (AccessScope P A)
  | .password expiresAt allowedIps =>
    if expiresAt.isSome || !allowedIps.isEmpty then
      ({ scopes.1 with expiresAt := expiresAt.getD U64_MAX, allowedIps }, scopes.2)
    else scopes
  | .apiKey credential | .appPassword credential =>
    let expiresAt := credential.expiresAt.getD U64_MAX
    if now < expiresAt then
      (scopes.1, scopes.2 ++ [{
        permissions := credential.permissions.scope scopes.1.permissions
        credentialId := documentId credential.credentialId
        expiresAt
        allowedIps := credential.allowedIps }])
    else scopes

/-- `AccessScope::new` -/
def AccessScope.new (permissions : Finset P) : AccessScope P A := ⟨permissions, U32_MAX, U64_MAX, []⟩

def Server.buildAccessToken (server : Server P) (now : ℕ) (accountId : UInt32) (account : Account P A) :
    Except AuthError (AccessTokenInner P A) := do
  let permissions ← server.effectivePermissions account.permissions (server.roleIdsOf account.tenantId.isSome account)
    account.tenantId
  let scope := AccessScope.new permissions.finalize
  match account with
  | .user user =>
    let (scope, scopes) := user.credentials.foldl (addCredential now) (scope, [])
    pure ⟨accountId, account.tenantId, user.memberGroupIds.map documentId, scope :: scopes⟩
  | .group _ => pure ⟨accountId, account.tenantId, [], [scope]⟩

end

/-! ## What an account gets -/

section

variable [DecidableEq P] {server : Server P}

theorem CredentialPermissions.scope_subset (permissions : Finset P) (c : CredentialPermissions P) :
    c.scope permissions ⊆ permissions := by
  cases c with
  | inherit => exact Finset.Subset.refl _
  | disable list => exact Finset.sdiff_subset
  | replace list => exact Finset.inter_subset_right

theorem addCredential_subset (now : ℕ) (scopes : AccessScope P A × List (AccessScope P A)) (c : Credential P A)
    (h : ∀ scope ∈ scopes.2, scope.permissions ⊆ scopes.1.permissions) :
    (addCredential now scopes c).1.permissions = scopes.1.permissions ∧
      ∀ scope ∈ (addCredential now scopes c).2, scope.permissions ⊆ scopes.1.permissions := by
  have hsecondary (credential : SecondaryCredential P A) : ∀ scope ∈ scopes.2 ++ [⟨credential.permissions.scope
      scopes.1.permissions, documentId credential.credentialId, credential.expiresAt.getD U64_MAX, credential.allowedIps⟩],
        scope.permissions ⊆ scopes.1.permissions := by
    intro scope hscope
    rcases mem_append.mp hscope with hscope | hscope
    · exact h scope hscope
    · rw [mem_singleton.mp hscope]
      exact CredentialPermissions.scope_subset _ _
  cases c with
  | password expiresAt allowedIps =>
    unfold addCredential
    dsimp only
    split_ifs
    · exact ⟨rfl, h⟩
    · exact ⟨rfl, h⟩
  | apiKey credential =>
    unfold addCredential
    dsimp only
    split_ifs
    · exact ⟨rfl, hsecondary credential⟩
    · exact ⟨rfl, h⟩
  | appPassword credential =>
    unfold addCredential
    dsimp only
    split_ifs
    · exact ⟨rfl, hsecondary credential⟩
    · exact ⟨rfl, h⟩

theorem foldl_addCredential_subset (now : ℕ) (credentials : List (Credential P A))
    (scopes : AccessScope P A × List (AccessScope P A)) (h : ∀ scope ∈ scopes.2, scope.permissions ⊆ scopes.1.permissions) :
    (credentials.foldl (addCredential now) scopes).1.permissions = scopes.1.permissions ∧
      ∀ scope ∈ (credentials.foldl (addCredential now) scopes).2, scope.permissions ⊆ scopes.1.permissions := by
  induction credentials generalizing scopes with
  | nil => exact ⟨rfl, h⟩
  | cons c credentials ih =>
    obtain ⟨hmain, hothers⟩ := addCredential_subset now scopes c h
    obtain ⟨hmain', hothers'⟩ := ih (addCredential now scopes c) (by rw [hmain]; exact hothers)
    rw [hmain] at hmain' hothers'
    exact ⟨hmain', hothers'⟩

theorem scopes_of_buildAccessToken {now : ℕ} {accountId : UInt32} {account : Account P A} {token : AccessTokenInner P A}
    (h : server.buildAccessToken now accountId account = .ok token) :
    ∃ g main others, server.effectivePermissions account.permissions (server.roleIdsOf account.tenantId.isSome account)
      account.tenantId = .ok g ∧ token.scopes = main :: others ∧ main.permissions = g.finalize ∧
        ∀ scope ∈ others, scope.permissions ⊆ main.permissions := by
  unfold buildAccessToken at h
  cases hg : server.effectivePermissions account.permissions (server.roleIdsOf account.tenantId.isSome account)
      account.tenantId with
  | error e => rw [hg] at h; cases h
  | ok g =>
    rw [hg] at h
    cases account with
    | group account =>
      obtain rfl := Except.ok.inj h
      exact ⟨g, _, [], rfl, rfl, rfl, nofun⟩
    | user account =>
      obtain rfl := Except.ok.inj h
      obtain ⟨hmain, hothers⟩ := foldl_addCredential_subset now account.credentials
        ((AccessScope.new g.finalize : AccessScope P A), []) nofun
      refine ⟨g, _, _, rfl, rfl, hmain, fun scope hscope => ?_⟩
      rw [hmain]
      exact hothers scope hscope

theorem effectivePermissions_tenant {permissions : OwnPermissions P} {roleIds : List Id} {tenantId : UInt32}
    {g : PermissionsGroup P} (h : server.effectivePermissions permissions roleIds (some tenantId) = .ok g) :
    if server.isEnterpriseEdition then ∃ t, server.tenantPermissions tenantId = .ok t ∧ g.finalize ⊆ t.finalize
    else g.finalize ⊆ server.defaultUser.toFinset := by
  have hpost : Post (fun g => if server.isEnterpriseEdition then
      ∃ t, server.tenantPermissions tenantId = .ok t ∧ g.finalize ⊆ t.finalize
      else g.finalize ⊆ server.defaultUser.toFinset) (fun _ => True)
      (server.effectivePermissions permissions roleIds (some tenantId)) := by
    refine Post.bind (post_true _) fun own _ => ?_
    split_ifs
    · refine Post.bind (Q := fun t => server.tenantPermissions tenantId = .ok t) ?_ fun t ht => ?_
      · cases server.tenantPermissions tenantId with
        | error e => trivial
        | ok t => rfl
      · exact ⟨t, ht, own.finalize_restrict_subset t⟩
    · exact (own.finalize_restrict_subset _).trans Finset.sdiff_subset
  exact hpost.of_eq_ok h

/-! ### Who gives permissions -/

/-- The roles of an administrator are the same for who asks and for the account. -/
def Agrees (accessToken : AccessToken P A) : Account P A → Prop
  | .user account => account.roles = .admin → accessToken.tenantId.isSome = (Account.user account).tenantId.isSome
  | .group _ => True

omit [DecidableEq P] in
theorem roleIdsOf_of_agrees {accessToken : AccessToken P A} {account : Account P A} (h : Agrees accessToken account) :
    server.roleIdsOf accessToken.tenantId.isSome account = server.roleIdsOf account.tenantId.isSome account := by
  cases account with
  | group account => rfl
  | user account =>
    unfold roleIdsOf
    dsimp only
    cases hroles : account.roles with
    | user => rfl
    | custom roleIds => rfl
    | admin => rw [h hroles]

theorem canGrantPermissions_iff {accessToken : AccessToken P A} {requested : Finset P} :
    accessToken.canGrantPermissions requested = true ↔ requested ⊆ accessToken.permissionsBits := by
  unfold AccessToken.canGrantPermissions
  rw [decide_eq_true_iff, Finset.sdiff_eq_empty_iff_subset]

/-- **What an account gets** is what who set it may give, and no credential has more than the account and its tenant. -/
theorem scope_limited {accessToken : AccessToken P A} {now : ℕ} {accountId : UInt32} {account : Account P A}
    {token : AccessTokenInner P A} (h : server.buildAccessToken now accountId account = .ok token) :
    (Agrees accessToken account → server.canSetPermissions accessToken account = .ok true →
      ∀ scope ∈ token.scopes, scope.permissions ⊆ accessToken.permissionsBits) ∧
    ∃ main others, token.scopes = main :: others ∧ (∀ scope ∈ others, scope.permissions ⊆ main.permissions) ∧
      ∀ tenantId, account.tenantId = some tenantId → ∀ scope ∈ token.scopes,
        if server.isEnterpriseEdition then ∃ t, server.tenantPermissions tenantId = .ok t ∧ scope.permissions ⊆ t.finalize
        else scope.permissions ⊆ server.defaultUser.toFinset := by
  obtain ⟨g, main, others, hg, hscopes, hmain, hothers⟩ := scopes_of_buildAccessToken h
  have hall (scope : AccessScope P A) (hscope : scope ∈ token.scopes) : scope.permissions ⊆ g.finalize := by
    rw [hscopes] at hscope
    rw [← hmain]
    rcases mem_cons.mp hscope with rfl | hscope
    · exact Finset.Subset.refl _
    · exact hothers scope hscope
  refine ⟨fun hagrees hcan scope hscope => ?_, main, others, hscopes, hothers, fun tenantId htenant scope hscope => ?_⟩
  · unfold canSetPermissions at hcan
    rw [roleIdsOf_of_agrees hagrees, hg] at hcan
    exact (hall scope hscope).trans (canGrantPermissions_iff.1 (Except.ok.inj hcan))
  · rw [htenant] at hg
    have hlimited := effectivePermissions_tenant hg
    split_ifs at hlimited ⊢
    · obtain ⟨t, ht, hsub⟩ := hlimited
      exact ⟨t, ht, (hall scope hscope).trans hsub⟩
    · exact (hall scope hscope).trans hlimited

end

/-! ### An administrator -/

/-- Permissions are numbers; administrators have the first one outside of tenants, and none in them. -/
def company (isEnterpriseEdition : Bool) : Server ℕ where
  roles := (∅ : HashMap UInt32 (Role ℕ)).insert 1 ⟨[1, 2], [2], [1]⟩
  tenants := (∅ : HashMap UInt32 (Tenant ℕ)).insert 7 ⟨.custom [], .replace ⟨[], []⟩⟩
  defaultRoleIdsUser := []
  defaultRoleIdsGroup := []
  defaultRoleIdsTenant := []
  defaultRoleIdsAdmin := [1]
  isEnterpriseEdition
  defaultUser := [3]

def holding (permissions : Finset ℕ) (tenantId : Option UInt32) : AccessToken ℕ Unit :=
  ⟨0, ⟨1, tenantId, [], [.new permissions]⟩⟩

def administrator (tenantId : Option Id) (permissions : OwnPermissions ℕ) : Account ℕ Unit :=
  .user ⟨[.apiKey ⟨1, none, .disable [1], []⟩], [], tenantId, .admin, permissions⟩

theorem addRolePermissions_administrator (isEnterpriseEdition : Bool) :
    (company isEnterpriseEdition).addRolePermissions .empty [1] =
      .ok (empty.union ⟨[1, 2].toFinset, [2].toFinset, false⟩) := by
  have hrole : (company isEnterpriseEdition).role 1 = .ok ⟨[1], ⟨[1, 2].toFinset, [2].toFinset, false⟩⟩ := rfl
  show (company isEnterpriseEdition).addRoles .empty [] [1] = _
  rw [addRoles_ok _ not_mem_nil hrole]
  show (company isEnterpriseEdition).addRoles _ [1] [1] = _
  rw [addRoles, dif_pos (mem_singleton.mpr rfl), addRoles]

theorem effectivePermissions_administrator (isEnterpriseEdition : Bool) :
    (company isEnterpriseEdition).effectivePermissions .inherit [1] none =
      .ok (empty.union ⟨[1, 2].toFinset, [2].toFinset, false⟩) := by
  show ((company isEnterpriseEdition).addRolePermissions .empty [1] >>= fun g => pure g) = _
  rw [addRolePermissions_administrator]
  rfl

theorem buildAccessToken_administrator (isEnterpriseEdition : Bool) :
    (company isEnterpriseEdition).buildAccessToken 5 9 (administrator none .inherit) =
      .ok ⟨9, none, [], [.new {1}, ⟨∅, 1, U64_MAX, []⟩]⟩ := by
  show ((company isEnterpriseEdition).effectivePermissions .inherit [1] none >>= _) = _
  rw [effectivePermissions_administrator]
  rfl

/-- Who has the permission may make an administrator, who gets it. -/
theorem scope_limited_administrator : (company true).canSetPermissions (holding {1} none) (administrator none .inherit) =
    .ok true ∧ ∀ scope ∈ [AccessScope.new {1}, (⟨∅, 1, U64_MAX, []⟩ : AccessScope ℕ Unit)],
      scope.permissions ⊆ (holding {1} none).permissionsBits := by
  have hcan : (company true).canSetPermissions (holding {1} none) (administrator none .inherit) = .ok true := by
    show ((company true).effectivePermissions .inherit [1] none >>= _) = _
    rw [effectivePermissions_administrator]
    rfl
  exact ⟨hcan, (scope_limited (buildAccessToken_administrator true)).1 (fun _ => rfl) hcan⟩

/-- Who is in a tenant may make an administrator outside of it, who gets what is not theirs; and without an enterprise
edition a tenant's member has permissions that the tenant has not. -/
theorem not_scope_limited :
    (¬ ∀ (server : Server ℕ) (accessToken : AccessToken ℕ Unit) (now : ℕ) (accountId : UInt32) (account : Account ℕ Unit)
        (token : AccessTokenInner ℕ Unit), server.buildAccessToken now accountId account = .ok token →
        server.canSetPermissions accessToken account = .ok true →
          ∀ scope ∈ token.scopes, scope.permissions ⊆ accessToken.permissionsBits) ∧
    ¬ ∀ (server : Server ℕ) (now : ℕ) (accountId tenantId : UInt32) (account : Account ℕ Unit)
        (token : AccessTokenInner ℕ Unit), server.buildAccessToken now accountId account = .ok token →
        account.tenantId = some tenantId → ∀ scope ∈ token.scopes,
          ∃ t, server.tenantPermissions tenantId = .ok t ∧ scope.permissions ⊆ t.finalize := by
  constructor
  · intro h
    have hsub := h (company true) (holding ∅ (some 7)) 5 9 _ _ (buildAccessToken_administrator true) rfl (.new {1})
      mem_cons_self
    revert hsub
    decide
  · intro h
    have hbuild : (company false).buildAccessToken 5 9 (administrator (some 7) (.replace ⟨[3], []⟩)) =
        .ok ⟨9, some 7, [], [.new {3}, ⟨{3}, 1, U64_MAX, []⟩]⟩ := rfl
    obtain ⟨t, ht, hsub⟩ := h (company false) 5 9 7 _ _ hbuild rfl (.new {3}) mem_cons_self
    obtain rfl := Except.ok.inj (show Except.ok _ = Except.ok t from ht)
    revert hsub
    decide

end MailServer.Common.Permissions

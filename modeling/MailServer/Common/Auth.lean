import Mathlib.Tactic.Common

/-!
# Access to accounts (`types/src/acl.rs`, `common/src/auth`, `common/src/sharing`)
-/

namespace MailServer.Common

inductive Acl where
  | read | modify | delete | readItems | addItems | modifyItems | removeItems | createChild | share
  | submit | schedulingReadFreeBusy | schedulingInvite | schedulingReply | modifyItemsOwn
  | modifyPrivateProperties | modifyRsvp | none
  deriving DecidableEq

structure AclGrant where
  accountId : UInt32
  grants : List Acl

structure AccessToken where
  accountId : UInt32
  memberOf : List UInt32
  /-- the accounts that share something -/
  accessTo : List UInt32
  /-- `Permission::Impersonate` in the scope -/
  impersonate : Bool

namespace AccessToken

def isMember (t : AccessToken) (accountId : UInt32) : Bool :=
  t.accountId = accountId || t.memberOf.contains accountId || t.impersonate

def isShared (t : AccessToken) (accountId : UInt32) : Bool :=
  !t.isMember accountId && t.accessTo.contains accountId

end AccessToken

def effectiveAcl (grants : List AclGrant) (t : AccessToken) : List Acl :=
  (grants.filter fun item => t.isMember item.accountId).flatMap AclGrant.grants

end MailServer.Common

import Mathlib.Data.Finset.SymmDiff
import MailServer.Lib.Nested
import MailServer.Nlp.Language
import MailServer.Trc

/-!
# Search filters (`store/src/search/mod.rs`)

A query carries a flat list of `SearchFilter`s: operators and document sets, and the group markers
`And`, `Or`, `Not` … `End`.  `Nested LogicalOp (LeafFilter ι)` is the tree of a well-nested list, and
`Tree.filters` the list.  A bitmap (`RoaringBitmap` of `u32`, `RoaringTreemap` of `u64`) is a finite
set over the id type `ι`.

`selects` is what a filter tree means for one document: it is the recursion over the tree that the
stack loops of `Search.Local` and `Search.Query` are compared with.
-/

namespace MailServer.Store.Search

open MailServer.Lib

inductive SearchOperator where
  | lowerThan | lowerEqualThan | greaterThan | greaterEqualThan | equal | contains
  deriving DecidableEq, Repr

inductive EmailSearchField where
  | «from» | to | cc | bcc | subject | body | attachment | receivedAt | sentAt | size | hasAttachment
  | headers
  deriving DecidableEq, Repr

inductive CalendarSearchField where
  | title | description | location | owner | attendee | start | uid
  deriving DecidableEq, Repr

inductive ContactSearchField where
  | member | kind | name | nickname | organization | email | phone | onlineService | address | note
  | uid
  deriving DecidableEq, Repr

inductive FileSearchField where
  | name | content
  deriving DecidableEq, Repr

inductive TracingSearchField where
  | eventType | queueId | keywords
  deriving DecidableEq, Repr

inductive SearchField where
  | accountId
  | documentId
  | id
  | email (field : EmailSearchField)
  | calendar (field : CalendarSearchField)
  | contact (field : ContactSearchField)
  | file (field : FileSearchField)
  | tracing (field : TracingSearchField)
  deriving DecidableEq, Repr

/-! The `Debug` form of a field, as the errors show it. -/

def EmailSearchField.debug : EmailSearchField → String
  | .«from» => "From"
  | .to => "To"
  | .cc => "Cc"
  | .bcc => "Bcc"
  | .subject => "Subject"
  | .body => "Body"
  | .attachment => "Attachment"
  | .receivedAt => "ReceivedAt"
  | .sentAt => "SentAt"
  | .size => "Size"
  | .hasAttachment => "HasAttachment"
  | .headers => "Headers"

def CalendarSearchField.debug : CalendarSearchField → String
  | .title => "Title"
  | .description => "Description"
  | .location => "Location"
  | .owner => "Owner"
  | .attendee => "Attendee"
  | .start => "Start"
  | .uid => "Uid"

def ContactSearchField.debug : ContactSearchField → String
  | .member => "Member"
  | .kind => "Kind"
  | .name => "Name"
  | .nickname => "Nickname"
  | .organization => "Organization"
  | .email => "Email"
  | .phone => "Phone"
  | .onlineService => "OnlineService"
  | .address => "Address"
  | .note => "Note"
  | .uid => "Uid"

def FileSearchField.debug : FileSearchField → String
  | .name => "Name"
  | .content => "Content"

def TracingSearchField.debug : TracingSearchField → String
  | .eventType => "EventType"
  | .queueId => "QueueId"
  | .keywords => "Keywords"

def SearchField.debug : SearchField → String
  | accountId => "AccountId"
  | documentId => "DocumentId"
  | id => "Id"
  | email field => "Email(" ++ field.debug ++ ")"
  | calendar field => "Calendar(" ++ field.debug ++ ")"
  | contact field => "Contact(" ++ field.debug ++ ")"
  | file field => "File(" ++ field.debug ++ ")"
  | tracing field => "Tracing(" ++ field.debug ++ ")"

inductive SearchValue where
  | text (value : String) (language : Nlp.Language)
  | keyValues (kv : List (String × String))
  | int (v : Int64)
  | uint (v : UInt64)
  | boolean (v : Bool)
  deriving DecidableEq

namespace SearchField

/-- `SearchField::is_indexed`: the field has a sort key (the build without `test_mode`). -/
def isIndexed : SearchField → Bool
  | email field =>
    match field with
    | .«from» | .to | .subject | .receivedAt | .sentAt | .size | .hasAttachment => true
    | _ => false
  | calendar field => field == .start || field == .uid
  | contact field => field == .uid || field == .kind
  | file _ => false
  | tracing field => field == .queueId || field == .eventType
  | accountId | documentId | id => false

/-- `SearchField::is_text`: the field is tokenized. -/
def isText : SearchField → Bool
  | email field =>
    match field with
    | .«from» | .to | .cc | .bcc | .subject | .body | .attachment => true
    | _ => false
  | calendar field => !(calendar field).isIndexed
  | contact field => !(contact field).isIndexed
  | file _ => true
  | tracing field => field == .keywords
  | accountId | documentId | id => false

/-- `SearchField::is_json`. -/
def isJson (field : SearchField) : Bool := field == email .headers

end SearchField

inductive SearchFilter (ι : Type) where
  | operator (field : SearchField) (op : SearchOperator) (value : SearchValue)
  | documentSet (bitmap : Finset ι)
  | and
  | or
  | not
  | «end»
  deriving DecidableEq

/-- The group markers `op @ (And | Or | Not)`. -/
inductive LogicalOp where
  | and | or | not
  deriving DecidableEq, Repr

/-- The filters that are not group markers. -/
inductive LeafFilter (ι : Type) where
  | operator (field : SearchField) (op : SearchOperator) (value : SearchValue)
  | documentSet (bitmap : Finset ι)
  deriving DecidableEq

variable {ι : Type}

namespace SearchFilter

/-- A filter as a token of a bracketed sequence. -/
def tok : SearchFilter ι → Tok LogicalOp (LeafFilter ι)
  | operator field op value => .leaf (.operator field op value)
  | documentSet bitmap => .leaf (.documentSet bitmap)
  | and => .opening .and
  | or => .opening .or
  | not => .opening .not
  | «end» => .closing

def ofTok : Tok LogicalOp (LeafFilter ι) → SearchFilter ι
  | .leaf (.operator field op value) => operator field op value
  | .leaf (.documentSet bitmap) => documentSet bitmap
  | .opening .and => and
  | .opening .or => or
  | .opening .not => not
  | .closing => «end»

@[simp] theorem ofTok_tok (f : SearchFilter ι) : ofTok f.tok = f := by cases f <;> rfl

@[simp] theorem tok_ofTok (t : Tok LogicalOp (LeafFilter ι)) : (ofTok t).tok = t := by
  rcases t with (_ | _) | (_ | _ | _) | _ <;> rfl

@[simp] theorem map_ofTok_map_tok (l : List (SearchFilter ι)) : (l.map tok).map ofTok = l := by
  simp [Function.comp_def]

@[simp] theorem map_tok_map_ofTok (l : List (Tok LogicalOp (LeafFilter ι))) :
    (l.map ofTok).map tok = l := by
  simp [Function.comp_def]

end SearchFilter

/-- The tree of a well-nested filter list. -/
abbrev Tree (ι : Type) := Nested LogicalOp (LeafFilter ι)

/-- The filter list of a tree. -/
def Tree.filters (t : Tree ι) : List (SearchFilter ι) := t.tokens.map SearchFilter.ofTok

/-- What a leaf contributes to its group: nothing (the loop's `continue`), or a bitmap, absent when no
document carries the searched term. -/
inductive Leaf (ι : Type) where
  | skip
  | result (bm : Option (Finset ι))
  deriving DecidableEq

/-! ## What a filter tree means -/

section

variable [DecidableEq ι] {α : Type} (val : α → Leaf ι) (mask : Finset ι) (i : ι)

/-- One member of a group: does the document survive it? -/
def member (op : LogicalOp) (b : Bool) : Bool :=
  match op with
  | .and | .or => b
  | .not => decide (i ∈ mask) && !b

/-- How the members of a group are joined. -/
def join (op : LogicalOp) (b rest : Bool) : Bool :=
  match op with
  | .or => b || rest
  | .and | .not => b && rest

/-- Does a group of kind `op` with the members `t` select document `i`?  `And` is the intersection of
its members, `Or` their union, `Not` the intersection of the complements relative to the mask. -/
def selects (op : LogicalOp) : Nested LogicalOp α → Bool
  | .nil => op != .or
  | .leaf x rest =>
    match val x with
    | .skip => selects op rest
    | .result bm => join op (member mask i op (decide (i ∈ bm.getD ∅))) (selects op rest)
  | .group op' members rest =>
    join op (member mask i op (selects op' members)) (selects op rest)

@[simp] theorem and_bne_or : (LogicalOp.and != .or) = true := rfl

@[simp] theorem or_bne_or : (LogicalOp.or != .or) = false := rfl

@[simp] theorem not_bne_or : (LogicalOp.not != .or) = true := rfl

theorem join_assoc (op : LogicalOp) (a b c : Bool) :
    join op (join op a b) c = join op a (join op b c) := by
  cases op <;> simp [join, Bool.and_assoc, Bool.or_assoc]

theorem join_comm (op : LogicalOp) (a b : Bool) : join op a b = join op b a := by
  cases op <;> simp [join, Bool.and_comm, Bool.or_comm]

instance (op : LogicalOp) : Std.Associative (join op) := ⟨join_assoc op⟩

instance (op : LogicalOp) : Std.Commutative (join op) := ⟨join_comm op⟩

@[simp] theorem join_nil (op : LogicalOp) (b : Bool) : join op b (op != .or) = b := by
  cases op <;> simp [join]

@[simp] theorem nil_join (op : LogicalOp) (b : Bool) : join op (op != .or) b = b := by
  rw [join_comm, join_nil]

variable {val mask i}

@[simp] theorem selects_nil (op : LogicalOp) :
    selects val mask i op (.nil : Nested LogicalOp α) = (op != .or) := rfl

theorem selects_leaf_result {x : α} {bm : Option (Finset ι)} (hx : val x = .result bm)
    (op : LogicalOp) (rest : Nested LogicalOp α) :
    selects val mask i op (.leaf x rest) =
      join op (member mask i op (decide (i ∈ bm.getD ∅))) (selects val mask i op rest) := by
  simp [selects, hx]

theorem selects_leaf (op : LogicalOp) (x : α) (rest : Nested LogicalOp α) :
    selects val mask i op (.leaf x rest) =
      join op (selects val mask i op (.leaf x .nil)) (selects val mask i op rest) := by
  cases hx : val x <;> simp [selects, hx]

theorem selects_append (op : LogicalOp) (t u : Nested LogicalOp α) :
    selects val mask i op (t.append u) =
      join op (selects val mask i op t) (selects val mask i op u) := by
  induction t with
  | nil => simp
  | leaf x rest ih =>
    show selects val mask i op (.leaf x (rest.append u)) = _
    rw [selects_leaf, selects_leaf op x rest, ih, join_assoc]
  | group g m rest _ ih =>
    show selects val mask i op (.group g m (rest.append u)) = _
    rw [selects, selects, ih, join_assoc]

end

end MailServer.Store.Search

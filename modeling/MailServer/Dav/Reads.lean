import MailServer.Dav.Propfind

/-!
# Reading items (`dav/src/calendar/{get,query}.rs`, `dav/src/card/{get,query}.rs`)

The four ways to read the events of a calendar or the cards of an address book, each of which asks in a different way
whether a user of another account may see them.

* `ReadRequest`, `Account.read`: the requests and their answers.
* `Discreet`: items are disclosed only with the right to read the items of the container through which they are
  addressed.
-/

namespace MailServer.Dav

open MailServer.Common MailServer.Common.DavResources MailServer.Groupware List

structure TimeRange where
  start : ℤ
  «end» : ℤ

/-- `DavResource::event_time_range`. -/
def eventTimeRange (r : DavResource) : Option (ℤ × ℤ) :=
  match r.data with
  | .calendarEvent _ start duration => some (start, start + duration)
  | _ => none

def isResourceInTimeRange (r : DavResource) (filter : TimeRange) : Bool :=
  match eventTimeRange r with
  | some (start, «end») =>
    (filter.start < «end» || filter.start ≤ start) && (filter.end > start || filter.end ≥ «end»)
  | none => false

section

variable {Content : Type} (a : Account Content) (t : AccessToken)

/-- `handle_calendar_get_request` and `handle_card_get_request`, when no precondition fails. -/
def handleGetRequest (resource : Option String) : Except StatusCode (PropFindItem × Content) :=
  match resource with
  | none => .error .methodNotAllowed
  | some name =>
    match a.resources.byPath name with
    | none => .error .notFound
    | some r =>
      if r.2.isContainer then .error .methodNotAllowed
      else if !t.isMember a.accountId &&
          !r.1.parentId.any fun parentId => a.resources.hasAccessToContainer t parentId (bitmap [.readItems]) then
        .error .forbidden
      else
        match a.archives false r.2.documentId with
        | some content => .ok (a.item r, content)
        | none => .error .notFound

/-- The items of `handle_calendar_query_request`, and without a range those of `handle_card_query_request`. -/
def queryItems (filterRange : Option TimeRange) (documentId : ℕ) : List PropFindItem :=
  let sharedIds := if t.isMember a.accountId then none else some (a.resources.sharedItems t [.readItems] false)
  ((a.resources.children documentId).filter fun r =>
    (sharedIds.all fun ids => decide (r.2.documentId ∈ ids)) && filterRange.all fun range =>
      isResourceInTimeRange r.2 range).map a.item

def handleQueryRequest (uri : String) (maxResults : ℕ) (limit : Option ℕ) (filterRange : Option TimeRange)
    (keeps : PropFindItem → Content → Bool) (resource : Option String) : Except StatusCode (List (Response Content)) :=
  match resource with
  | none => .error .methodNotAllowed
  | some name =>
    match a.resources.byPath name with
    | none => .ok [.status uri .notFound]
    | some r =>
      if !r.2.isContainer then .error .methodNotAllowed
      else
        let items := queryItems a t filterRange r.2.documentId
        .ok (handleDavQuery (fun _ => a) uri maxResults limit keeps ⟨[], items, false, none⟩).1

end

/-! ## The requests -/

/-- A request that reads items; the filter of a query is what it lets through. -/
inductive ReadRequest (Content : Type) where
  | get (resource : Option String)
  | propfind (query : DavQuery)
  | multiget (uri : String) (hrefs : List (String × Option String))
  | query (uri : String) (limit : Option ℕ) (filterRange : Option TimeRange) (keeps : PropFindItem → Content → Bool)
      (resource : Option String)

section

variable {Content : Type}

/-- The items of calendars and address books that an answer discloses, with what the store has of them. -/
def disclosed (responses : List (Response Content)) : List (PropFindItem × Content) :=
  responses.filterMap fun
    | .propstat item content => some (item, content)
    | .status .. => none

/-- What a request discloses. -/
def Account.read (a : Account Content) (t : AccessToken) (maxResults : ℕ) :
    ReadRequest Content → List (PropFindItem × Content)
  | .get resource =>
    match handleGetRequest a t resource with
    | .ok r => [r]
    | .error _ => []
  | .propfind query =>
    match get a t true (min (query.limit.getD (2 ^ 32 - 1)) maxResults) query with
    | .ok answer => disclosed (handleDavQuery (fun _ => a) query.uri maxResults query.limit (fun _ _ => true) answer).1
    | .error _ => []
  | .multiget uri hrefs =>
    disclosed (handleDavQuery (fun _ => a) uri maxResults none (fun _ _ => true)
      (multiget t (fun _ => a) true (hrefs.map fun href => ⟨href.1, .ok (a.accountId, href.2)⟩))).1
  | .query uri limit filterRange keeps resource =>
    match handleQueryRequest a t uri maxResults limit filterRange keeps resource with
    | .ok responses => disclosed responses
    | .error _ => []

/-- Whatever is disclosed of an item, its container lets the user read its items. -/
def Discreet (a : Account Content) (t : AccessToken) : Prop :=
  ∀ maxResults request, ∀ d ∈ a.read t maxResults request, d.1.isContainer = false →
    ∃ k, d.1.parentId = some k ∧ Acl.readItems ∈ a.resources.containerAcl t k

end

/-! ## The items of an answer -/

section

variable {Content : Type}

theorem mem_disclosed {responses : List (Response Content)} {d : PropFindItem × Content} :
    d ∈ disclosed responses ↔ Response.propstat d.1 d.2 ∈ responses := by
  unfold disclosed
  rw [List.mem_filterMap]
  constructor
  · rintro ⟨response, hmem, hsome⟩
    cases response with
    | status => cases hsome
    | propstat item content =>
      obtain rfl := Option.some.inj hsome
      exact hmem
  · exact fun hmem => ⟨_, hmem, rfl⟩

variable {archives : PropFindItem → Option Content} {keeps : PropFindItem → Content → Bool}

theorem of_mem_respond {item : PropFindItem} {content : Content} : ∀ {items : List PropFindItem} {limit : ℕ},
    Response.propstat item content ∈ (respond archives keeps limit items).1 →
      item ∈ items ∧ archives item = some content
  | [], _, h => by cases h
  | i :: items, limit, h => by
    have hrest (limit : ℕ) (h : Response.propstat item content ∈ (respond archives keeps limit items).1) :
        item ∈ i :: items ∧ archives item = some content :=
      (of_mem_respond h).imp_left (mem_cons_of_mem _)
    unfold respond at h
    cases harchive : archives i with
    | none =>
      rw [harchive] at h
      rcases mem_cons.mp h with h | h
      · cases h
      · exact hrest _ h
    | some c =>
      rw [harchive] at h
      dsimp only at h
      by_cases hkeeps : keeps i c = true
      · have hfirst (h : Response.propstat item content = .propstat i c) :
            item ∈ i :: items ∧ archives item = some content := by
          obtain ⟨rfl, rfl⟩ := Response.propstat.inj h
          exact ⟨mem_cons_self, harchive⟩
        split_ifs at h
        · exact hfirst (mem_singleton.mp h)
        · exact (mem_cons.mp h).elim hfirst (hrest _)
      · rw [if_neg hkeeps] at h
        exact hrest _ h

theorem mem_respond {item : PropFindItem} {content : Content} (harchive : archives item = some content)
    (hkeeps : keeps item content = true) {after : List PropFindItem} : ∀ {before : List PropFindItem} {limit : ℕ},
    (∀ i ∈ before, ∀ c, archives i = some c → keeps i c = false) →
    Response.propstat item content ∈ (respond archives keeps limit (before ++ item :: after)).1
  | [], limit, _ => by
    show _ ∈ (respond archives keeps limit (item :: after)).1
    unfold respond
    rw [harchive]
    dsimp only
    split_ifs
    · exact mem_singleton_self _
    · exact mem_cons_self
  | i :: before, limit, h => by
    have hrest : Response.propstat item content ∈ (respond archives keeps limit (before ++ item :: after)).1 :=
      mem_respond harchive hkeeps fun j hj => h j (mem_cons_of_mem _ hj)
    show _ ∈ (respond archives keeps limit (i :: (before ++ item :: after))).1
    unfold respond
    cases hi : archives i with
    | none => exact mem_cons_of_mem _ hrest
    | some c =>
      dsimp only
      rw [h i mem_cons_self c hi]
      exact hrest

variable {a : Account Content} {uri : String} {maxResults : ℕ} {limit : Option ℕ} {answer : Answer Content}

theorem of_mem_handleDavQuery {d : PropFindItem × Content} (hresponses : disclosed answer.responses = [])
    (h : d ∈ disclosed (handleDavQuery (fun _ => a) uri maxResults limit keeps answer).1) :
    d.1 ∈ answer.items ∧ a.archives d.1.isContainer d.1.documentId = some d.2 := by
  rw [mem_disclosed] at h
  rcases mem_append.mp h with h | h
  · rcases mem_append.mp h with h | h
    · rw [← mem_disclosed, hresponses] at h
      cases h
    · exact of_mem_respond h
  · split_ifs at h
    · cases mem_singleton.mp h
    · cases h

theorem mem_handleDavQuery {item : PropFindItem} {content : Content}
    (harchive : a.archives item.isContainer item.documentId = some content) (hkeeps : keeps item content = true)
    {before after : List PropFindItem} (hitems : answer.items = before ++ item :: after)
    (hbefore : ∀ i ∈ before, ∀ c, keeps i c = false) :
    (item, content) ∈ disclosed (handleDavQuery (fun _ => a) uri maxResults limit keeps answer).1 := by
  rw [mem_disclosed]
  unfold handleDavQuery
  rw [hitems]
  refine mem_append_left _ (mem_append_right _ (mem_respond ?_ hkeeps fun i hi c _ => hbefore i hi c))
  exact harchive

end

end MailServer.Dav

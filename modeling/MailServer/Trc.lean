import Mathlib.Init

/-!
# Errors of the server

`trc::Error` as far as the modelled functions build it: the event and the text the code attaches.
-/

namespace MailServer.Trc

/-- `trc::StoreEvent`, the events the modelled functions raise. -/
inductive StoreEvent where
  | unexpectedError
  | assertValueFailed
  | dataCorruption
  deriving DecidableEq, Repr

/-- `trc::Error`: an event with its `details` (or `reason`) text. -/
structure Error where
  event : StoreEvent
  details : String
  deriving DecidableEq, Repr

end MailServer.Trc

import Vcmp.Session.State
/-!
# Transport options

What the builders of a client and of a server set for their sessions.
Both offer the same calls, in any order and any number of them.
-/

namespace Vcmp

/-- `ResourceLimits::default`. -/
def ResourceLimits.default : ResourceLimits where
  connections := 128
  queuedMessages := 1024
  queuedBytes := 16 <<< 20
  controlMessages := 1024
  controlBytes := 8 <<< 20
  pendingRequests := 1024
  handlerTasks := 256
  handlerBytes := 16 <<< 20

/-- `SessionLimits::default`. -/
def SessionLimits.default : SessionLimits where
  resources :=
    { connections := 1
      queuedMessages := 128
      queuedBytes := 4 <<< 20
      controlMessages := 128
      controlBytes := 4 <<< 20
      pendingRequests := 256
      handlerTasks := 128
      handlerBytes := 4 <<< 20 }
  maxMessageBytes := 2 <<< 20

/-- Transport settings shared by client and server. -/
structure TransportOptions where
  /-- The size of the frames outgoing texts are split into. -/
  fragmentSize : Option ℕ := none
  /-- The maximum size of an incoming message. -/
  maxMessageSize : Option ℕ := some (2 <<< 20)
  limits : SessionLimits := .default
  budget : ResourceBudget := .new .default
  deriving DecidableEq

/-- A call of a builder. -/
inductive BuilderCall where
  | fragmentSize (size : Option ℕ)
  | maxMessageSize (size : ℕ)
  | sessionLimits (limits : SessionLimits)
  | resourceBudget (budget : ResourceBudget)

namespace TransportOptions

/-- The options after a call. -/
def call (o : TransportOptions) : BuilderCall → TransportOptions
  | .fragmentSize size => { o with fragmentSize := size }
  | .maxMessageSize size => { o with
      maxMessageSize := some size
      limits := { o.limits with maxMessageBytes := size } }
  | .sessionLimits limits => { o with
      maxMessageSize := some limits.maxMessageBytes
      limits := limits }
  | .resourceBudget budget => { o with budget := budget }

/-- What a builder has built. -/
def build (calls : List BuilderCall) : TransportOptions := calls.foldl call {}

end TransportOptions

end Vcmp

import AspikePort.ConnectionHistory
import AspikePort.InfoCalls
import AspikePort.NodeAddresses
import AspikePort.PortSessions

/-!
# The list of the hosts

Either half keeps the hosts in the configuration of its client. They are those
that have been added since the configuration was last emptied, whatever else is
called in between, and the two halves list them in opposite directions.
-/

set_option autoImplicit false

namespace AspikePort.HostLists
open AspikePort.ErlangTerms AspikePort.ClientValues AspikePort.EarlyReturn AspikePort.NifWorld
open AspikePort.CdtPut AspikePort.SyncCalls AspikePort.AsyncCalls AspikePort.Lifecycle
open AspikePort.LabelledRuns Proc

section Frames
variable {α : Type} {c : Client} {env : Env}

def hosts (w : World) : List Host := w.config.hosts

end Frames

section Events
variable {c : Client}

/-- What can happen to the list of the hosts. -/
inductive HostEvent where
  | fresh
  | added (hosts : List Host)
  | cleared

namespace HostEvent

def apply (c : Client) : List Host → HostEvent → List Host
  | _, fresh => c.configInit.hosts
  | held, added hosts => held ++ hosts
  | _, cleared => []

def Empties : HostEvent → Prop
  | fresh | cleared => True
  | added _ => False

/-- What an event leaves of no hosts at all. -/
def brings (c : Client) : HostEvent → List Host
  | fresh => c.configInit.hosts
  | added hosts => hosts
  | cleared => []

end HostEvent

def held (c : Client) (es : List HostEvent) : List Host := es.foldl (HostEvent.apply c) []

end Events

section Native
variable {c : Client} {env : Env}

end Native

section Port
variable {c : Client}
open PortCalls PortHandlers PortSessions ExternalTerms EiBuffers InfoCalls

/-- The hosts since the list was last emptied are shown so. -/
def Shows (c : Client) (es : List HostEvent) (shown : List Host → Prop) : Prop :=
  ∃ before e since, es = before ++ e::since ∧ e.Empties ∧ (∀ d ∈ since, ¬d.Empties) ∧
    shown ((e::since).flatMap (HostEvent.brings c))

end Port

section Example
open PortCalls PortHandlers PortSessions ExternalTerms EiBuffers FrameReplies

end Example

end AspikePort.HostLists

import Atum.Go.Strings
import Atum.Library.Stepwise

/-!
# Forwarding exceptions of the libvirt network

The source lets the libvirt bridge through the firewall with four rules: for
traffic in each of two directions, in the permanent and in the runtime table.
It keeps the name of the bridge in a state file, and every action is planned
from that file.  An install looks the bridge up again and clears the bridge of
the file if it is another one; only then does it add the rules, and it writes
the file last.

A host has the rules of its two tables and the state file.  Every firewall
command and every file operation is one operation of a program on hosts.
-/

namespace Atum.Infra

open Atum.Go Stepwise Stepwise.Prog

/-! ## The host -/

inductive Direction where
  | ingress
  | returning
  deriving DecidableEq, Repr

structure Rule where
  /-- The rule is in the permanent table, not in the runtime table. -/
  permanent : Bool
  direction : Direction
  bridge : String
  deriving DecidableEq, Repr

structure Host where
  rules : List Rule
  /-- The content of `/etc/atum/libvirt-forwarding.bridge`. -/
  stateFile : Option String
  deriving DecidableEq, Repr

def Host.add (host : Host) (rule : Rule) : Host :=
  { host with rules := host.rules.insert rule }

def Host.remove (host : Host) (rule : Rule) : Host :=
  { host with rules := host.rules.filter (· ≠ rule) }

@[simp] theorem Host.mem_add {host : Host} {rule other : Rule} :
    other ∈ (host.add rule).rules ↔ other = rule ∨ other ∈ host.rules := List.mem_insert_iff

@[simp] theorem Host.mem_remove {host : Host} {rule other : Rule} :
    other ∈ (host.remove rule).rules ↔ other ∈ host.rules ∧ other ≠ rule := by
  simp [remove]

/-- The four rules of a bridge, in the order of the source's loops. -/
def forwardingRules (bridge : String) : List Rule :=
  [true, false].flatMap fun permanent =>
    [Direction.ingress, .returning].map fun direction => { permanent, direction, bridge }

/-! ## The state file -/

def forwardingStatePath : String := "/etc/atum/libvirt-forwarding.bridge"

def bridgeStateLimit : Nat := 16

/-- `[[:alnum:]_.:-]`. -/
def bridgeCharacter (c : Char) : Bool :=
  c.isAlphanum || c = '_' || c = '.' || c = ':' || c = '-'

/-- `bridgePattern`: between one and fifteen of these characters. -/
def bridgePattern (name : String) : Bool :=
  name.toList.all bridgeCharacter && 1 ≤ name.toList.length && name.toList.length ≤ 15

/-- The bridge of the state file, and whether there is one. -/
def readForwardingState (host : Host) : Except String (String × Bool) :=
  match host.stateFile with
  | none => .ok ("", false)
  | some data =>
    if bridgeStateLimit < len data then
      .error ("host path " ++ forwardingStatePath ++ " is not a bounded secure regular file")
    else
      let bridge := trimSuffix data "\n"
      if !bridgePattern bridge || contains bridge "\n" then
        .error ("invalid forwarding bridge state in " ++ forwardingStatePath)
      else .ok (bridge, true)

/-! ## Plans -/

inductive ForwardingAction where
  | invalid
  | install
  | status
  | uninstall
  deriving DecidableEq, Repr

def ForwardingAction.name : ForwardingAction → String
  | .install => "install"
  | .status => "status"
  | .uninstall => "uninstall"
  | .invalid => "invalid"

structure ForwardingPlan where
  action : ForwardingAction
  savedBridge : String
  discover : Bool
  deriving DecidableEq, Repr

/-- The action that a word of the command line selects. -/
def selectedAction (action : String) : Except String ForwardingAction :=
  if action = "install" then .ok .install
  else if action = "status" then .ok .status
  else if action = "uninstall" then .ok .uninstall
  else .error ("unsupported libvirt forwarding action " ++ quote action)

def planForwarding (action : String) (host : Host) : Except String ForwardingPlan := do
  let selected ← selectedAction action
  let (bridge, found) ← readForwardingState host
  return { action := selected, savedBridge := bridge, discover := selected = .install || !found }

def ForwardingPlan.valid (plan : ForwardingPlan) : Bool :=
  match plan.action with
  | .install => plan.discover
  | .status | .uninstall => plan.discover == (plan.savedBridge = "")
  | .invalid => false

/-! ## The service -/

/-- What an action gets from outside: its tools, its user, and what firewalld
and virsh answer. -/
structure Service where
  runner : Bool
  outputRunner : Bool
  euid : Nat
  virshBin : String
  firewallBin : String
  /-- `firewall-cmd --state` succeeds. -/
  firewalldRunning : Bool
  /-- What `virsh net-info atum` prints. -/
  netInfo : Except String String

/-- The bridge that a line of `virsh net-info` names. -/
def bridgeOfLine (line : String) : Option String :=
  match fields line with
  | [label, name] => if label = "Bridge:" && bridgePattern name then some name else none
  | _ => none

def Service.discoverBridge (service : Service) : Except String String :=
  if !service.outputRunner then .error "libvirt bridge discovery requires output capture"
  else if service.virshBin = "" then
    .error "validated virsh preflight identity is required for live bridge discovery"
  else
    match service.netInfo with
    | .error e => .error ("inspect libvirt network atum: " ++ e)
    | .ok output =>
      match (split output '\n').findSome? bridgeOfLine with
      | some bridge => .ok bridge
      | none => .error "libvirt network atum has no valid bridge"

inductive RuleCommand where
  | query
  | add
  | remove
  deriving DecidableEq, Repr

/-- One `firewall-cmd` on a rule.  A query tells whether the rule is there. -/
def forwardingRule (command : RuleCommand) (rule : Rule) : Prog Host Bool :=
  match command with
  | .query => observe fun host => decide (rule ∈ host.rules)
  | .add => do
      operate fun host => host.add rule
      return true
  | .remove => do
      operate fun host => host.remove rule
      return true

def removeForwardingRule (rule : Rule) : Prog Host Unit := do
  let found ← forwardingRule .query rule
  if found then
    let _ ← forwardingRule .remove rule
    return ()
  else return ()

def removeForwardingRules (bridge : String) : Prog Host Unit :=
  all removeForwardingRule (forwardingRules bridge)

/-- The body of the loop over the four rules. -/
def forwardRule (action : ForwardingAction) (rule : Rule) : Prog Host Unit :=
  match action with
  | .install => do
      let found ← forwardingRule .query rule
      if found then return ()
      else
        let _ ← forwardingRule .add rule
        return ()
  | .status => do
      let found ← forwardingRule .query rule
      check found ("missing forwarding rule for bridge " ++ rule.bridge)
  | .uninstall => removeForwardingRule rule
  | .invalid => do
      let _ ← forwardingRule .query rule
      return ()

/-- An operation that changes nothing an action reads. -/
def aside : Prog Host Unit := observe fun _ => ()

/-- Write the state file: the directory, a temporary file, its content and its
sync, the rename, and the sync of the directory. -/
def atomicHostFile (data : String) : Prog Host Unit := do
  aside
  aside
  aside
  aside
  operate fun host => { host with stateFile := some data }
  aside

/-- Remove the state file and sync its directory. -/
def removeHostFile : Prog Host Unit := fun host =>
  match host.stateFile with
  | none => (.ok (), [])
  | some _ => (operate (fun host => { host with stateFile := none }) >>= fun _ => aside) host

def recordState (action : ForwardingAction) (bridge : String) : Prog Host Unit :=
  match action with
  | .install => atomicHostFile (bridge ++ "\n")
  | .status => return ()
  | .uninstall => removeHostFile
  | .invalid => check false "valid libvirt forwarding plan is required"

/-- An install of another bridge than the recorded one clears the recorded one. -/
def clearSavedBridge (plan : ForwardingPlan) (bridge : String) : Prog Host Unit :=
  if plan.action = .install ∧ plan.savedBridge ≠ "" ∧ plan.savedBridge ≠ bridge then
    removeForwardingRules plan.savedBridge
  else return ()

/-- What an action does once it knows its bridge. -/
def applyForwarding (plan : ForwardingPlan) (bridge : String) : Prog Host Unit := do
  clearSavedBridge plan bridge
  all (forwardRule plan.action) (forwardingRules bridge)
  recordState plan.action bridge

/-- The bridge that a plan is about. -/
def Service.planned (service : Service) (plan : ForwardingPlan) : Except String String :=
  if plan.discover then service.discoverBridge else .ok plan.savedBridge

def Service.forwarding (service : Service) (plan : ForwardingPlan) : Prog Host Unit := do
  check service.runner "libvirt command runner is unavailable"
  check plan.valid "valid libvirt forwarding plan is required"
  check (service.firewallBin ≠ "") "validated firewalld preflight identity is required"
  check (service.euid = 0)
    ("libvirt forwarding " ++ plan.action.name ++ " requires root; rerun with sudo")
  let running ← observe fun _ => service.firewalldRunning
  check running "firewalld must be running to manage persistent forwarding rules"
  let bridge ← given (service.planned plan)
  applyForwarding plan bridge

/-- An action: it is planned from the state on disk and then carried out. -/
def Service.run (service : Service) (action : String) : Prog Host Unit := do
  let plan ← inspect (planForwarding action)
  service.forwarding plan

end Atum.Infra

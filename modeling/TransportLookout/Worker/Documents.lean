/-
What the scanners leave behind: `results.py`.

A document is what `ET.parse` makes of an XML file: a tree of elements, or the
error it raises for a file that is missing or does not parse.  Masscan's file is
read to the end before anything is recorded.  Nmap's is recorded host by host, so
an error in it leaves the hosts before it, and the services before it of its own
host, in the session.

`int` is the conversion of the language from a string, with the text of its error.
Nothing depends on which strings it takes.
-/
import Mathlib.Data.List.Dedup
import Mathlib.Data.List.Sort
import TransportLookout.Models

namespace TransportLookout

inductive Element
  | node (tag : String) (attrib : List (String × String)) (children : List Element)

abbrev Document := Except String Element

/-- A step of a path: a tag, and the value an attribute must have. -/
structure Selector where
  tag : String
  predicate : Option (String × String) := none

namespace Element

def tag : Element → String
  | .node tag _ _ => tag

def attrib : Element → List (String × String)
  | .node _ attrib _ => attrib

def children : Element → List Element
  | .node _ _ children => children

def get (e : Element) (name : String) : Option String := e.attrib.lookup name

/-- `attrib[name]`. -/
def require (e : Element) (name : String) : Except String String :=
  match e.get name with
  | some value => .ok value
  | none => .error ("KeyError: '" ++ name ++ "'")

def selected (s : Selector) (e : Element) : Bool :=
  e.tag = s.tag && s.predicate.all fun (name, value) => e.get name = some value

def findall (e : Element) : List Selector → List Element
  | [] => [e]
  | s :: path => (e.children.filter (selected s)).flatMap fun child => child.findall path

def find (e : Element) (path : List Selector) : Option Element := (e.findall path).head?

end Element

/-! ## Masscan -/

/-- The order of tuples of two strings and a number. -/
def tupleLe (a b : String × String × Int) : Prop :=
  a.1 < b.1 ∨ a.1 = b.1 ∧ (a.2.1 < b.2.1 ∨ a.2.1 = b.2.1 ∧ a.2.2 ≤ b.2.2)

instance : DecidableRel tupleLe := fun a b =>
  inferInstanceAs (Decidable (a.1 < b.1 ∨ a.1 = b.1 ∧ (a.2.1 < b.2.1 ∨ a.2.1 = b.2.1 ∧
    a.2.2 ≤ b.2.2)))

section
variable (int : String → Except String Int)

def masscanHost (host : Element) : Except String (List (String × String × Int)) :=
  match host.find [{ tag := "address", predicate := some ("addrtype", "ipv4") }] with
  | none => .ok []
  | some address =>
    let ports := host.findall [{ tag := "ports" },
      { tag := "port", predicate := some ("protocol", "tcp") }]
    (ports.filter fun port =>
      (port.find [{ tag := "state", predicate := some ("state", "open") }]).isSome).mapM fun port =>
        do return (← address.require "addr", "tcp", ← int (← port.require "portid"))

def masscanObservations (root : Element) : Except String (List (String × String × Int)) := do
  let observations ← (root.findall [{ tag := "host" }]).mapM (masscanHost int)
  return observations.flatten.dedup.insertionSort tupleLe

end

/-! ## Nmap -/

/-- The columns of a service row that come from the document. -/
structure ScannedService where
  protocol : String
  port : Int
  state : String
  service : Option String
  product : Option String
  version : Option String
deriving DecidableEq, Repr

structure ScannedHost where
  address : String
  state : String
  hostname : Option String
  services : List ScannedService
deriving DecidableEq, Repr

section
variable (int : String → Except String Int)

def scannedService (port state : Element) : Except String ScannedService := do
  let service := port.find [{ tag := "service" }]
  return {
    protocol := (port.get "protocol").getD "unknown"
    port := ← int (← port.require "portid")
    state := (state.get "state").getD "unknown"
    service := service.bind fun node => node.get "name"
    product := service.bind fun node => node.get "product"
    version := service.bind fun node => node.get "version" }

/-- The services of a host up to the port that raises. -/
def scannedServices : List Element → List ScannedService × Option String
  | [] => ([], none)
  | port :: ports =>
    match port.find [{ tag := "state" }] with
    | none => scannedServices ports
    | some state =>
      match scannedService int port state with
      | .error error => ([], some error)
      | .ok service =>
        let (services, error) := scannedServices ports
        (service :: services, error)

def addressNode (node : Element) : Option Element :=
  (node.find [{ tag := "address", predicate := some ("addrtype", "ipv4") }]).or
    (node.find [{ tag := "address" }])

/-- The hosts of the document up to the one that raises, which is the last where
one of its ports does. -/
def scannedHosts : List Element → List ScannedHost × Option String
  | [] => ([], none)
  | node :: nodes =>
    match addressNode node, node.find [{ tag := "status" }] with
    | some address, some status =>
      match address.require "addr" with
      | .error error => ([], some error)
      | .ok addr =>
        let (services, failed) :=
          scannedServices int (node.findall [{ tag := "ports" }, { tag := "port" }])
        let host : ScannedHost := {
          address := addr
          state := (status.get "state").getD "unknown"
          hostname := (node.find [{ tag := "hostnames" }, { tag := "hostname" }]).bind fun name =>
            name.get "name"
          services := services }
        match failed with
        | some error => ([host], some error)
        | none =>
          let (hosts, error) := scannedHosts nodes
          (host :: hosts, error)
    | _, _ => scannedHosts nodes

/-- What `normalize_nmap_xml` adds to the session, and the error it ends with. -/
def normalizeNmapXml (document : Document) : List ScannedHost × Option String :=
  match document with
  | .error error => ([], some error)
  | .ok root => scannedHosts int (root.findall [{ tag := "host" }])

/-- Reading Masscan's document adds nothing unless all of it can be read. -/
def readMasscanXml (document : Document) : Except String (List (String × String × Int)) :=
  document.bind (masscanObservations int)

end

/-! ## Rows -/

def ScannedService.row (s : ScannedService) (id : Uuid) : ServiceObservation :=
  { id, hostObservationId := "", protocol := s.protocol, port := s.port, state := s.state,
    service := s.service, product := s.product, version := s.version }

def ScannedHost.row (h : ScannedHost) (id : Uuid) : HostObservation :=
  { id, runId := "", shardId := "", address := h.address, state := h.state, hostname := h.hostname }

def ServiceObservation.scanned (s : ServiceObservation) : ScannedService :=
  { protocol := s.protocol, port := s.port, state := s.state, service := s.service,
    product := s.product, version := s.version }

def HostObservation.scanned (h : HostObservation) (services : List ServiceObservation) :
    ScannedHost :=
  { address := h.address, state := h.state, hostname := h.hostname,
    services := services.map ServiceObservation.scanned }

/-- The rows of the scanned hosts, under the ids drawn for them. -/
def identified : List ScannedHost → List (Uuid × List Uuid) →
    List (HostObservation × List ServiceObservation)
  | host :: hosts, (id, ids) :: drawn =>
    (host.row id, List.zipWith ScannedService.row host.services ids) :: identified hosts drawn
  | _, _ => []

/-- One id for each row. -/
def Suits (hosts : List ScannedHost) (drawn : List (Uuid × List Uuid)) : Prop :=
  drawn.map (fun d => d.2.length) = hosts.map fun h => h.services.length

instance (hosts : List ScannedHost) (drawn : List (Uuid × List Uuid)) :
    Decidable (Suits hosts drawn) :=
  inferInstanceAs (Decidable (_ = _))

section
variable {int : String → Except String Int} {root : Element}
  {observations : List (String × String × Int)} {hosts : List ScannedHost}
  {drawn : List (Uuid × List Uuid)}

/-- Masscan's document yields no candidate twice. -/
theorem masscanObservations_nodup (h : masscanObservations int root = .ok observations) :
    observations.Nodup := by
  rw [masscanObservations] at h
  cases hhosts : (root.findall [{ tag := "host" }]).mapM (masscanHost int) with
  | error error =>
    rw [hhosts] at h
    cases h
  | ok found =>
    rw [hhosts] at h
    cases h
    exact (List.perm_insertionSort tupleLe _).nodup_iff.mpr (List.nodup_dedup _)

theorem identified_hosts (h : Suits hosts drawn) :
    (identified hosts drawn).map (fun x => x.1.id) = drawn.map Prod.fst := by
  induction hosts generalizing drawn with
  | nil =>
    cases drawn with
    | nil => rfl
    | cons d drawn => cases h
  | cons host hosts ih =>
    cases drawn with
    | nil => cases h
    | cons d drawn =>
      obtain ⟨-, htail⟩ := List.cons.inj h
      rw [identified, List.map_cons, List.map_cons, ih htail]
      rfl

theorem row_ids {services : List ScannedService} {ids : List Uuid}
    (h : ids.length = services.length) :
    (List.zipWith ScannedService.row services ids).map ServiceObservation.id = ids := by
  induction services generalizing ids with
  | nil => rw [List.length_eq_zero_iff.mp h]; rfl
  | cons service services ih =>
    cases ids with
    | nil => cases h
    | cons id ids =>
      rw [List.zipWith_cons_cons, List.map_cons, ih (Nat.succ.inj h)]
      rfl

theorem identified_services (h : Suits hosts drawn) :
    (identified hosts drawn).flatMap (fun x => x.2.map ServiceObservation.id) =
      drawn.flatMap Prod.snd := by
  induction hosts generalizing drawn with
  | nil =>
    cases drawn with
    | nil => rfl
    | cons d drawn => cases h
  | cons host hosts ih =>
    cases drawn with
    | nil => cases h
    | cons d drawn =>
      obtain ⟨hlength, htail⟩ := List.cons.inj h
      rw [identified, List.flatMap_cons, List.flatMap_cons, ih htail, row_ids hlength]

theorem row_scanned {services : List ScannedService} {ids : List Uuid}
    (h : ids.length = services.length) :
    (List.zipWith ScannedService.row services ids).map ServiceObservation.scanned = services := by
  induction services generalizing ids with
  | nil => rw [List.length_eq_zero_iff.mp h]; rfl
  | cons service services ih =>
    cases ids with
    | nil => cases h
    | cons id ids =>
      rw [List.zipWith_cons_cons, List.map_cons, ih (Nat.succ.inj h)]
      rfl

/-- The rows hold what was scanned. -/
theorem identified_scanned (h : Suits hosts drawn) :
    (identified hosts drawn).map (fun x => x.1.scanned x.2) = hosts := by
  induction hosts generalizing drawn with
  | nil =>
    cases drawn with
    | nil => rfl
    | cons d drawn => cases h
  | cons host hosts ih =>
    cases drawn with
    | nil => cases h
    | cons d drawn =>
      obtain ⟨hlength, htail⟩ := List.cons.inj h
      rw [identified, List.map_cons, ih htail, HostObservation.scanned, row_scanned hlength]
      rfl

end

end TransportLookout

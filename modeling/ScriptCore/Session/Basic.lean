import ScriptCore.Compile.Package
import ScriptCore.Machine.Execute

/-!
# Sessions

A session is what programs are loaded into: the types that host functions use, the host functions
themselves, alone or in packages, and the options of compiling and running.

Main statements: `addFunc_find` (a registered function is found) and `addFunc_count` (it gets the
next number).
-/

namespace ScriptCore

/-- What programs are loaded into.  `bodies` are the host functions by number, `lowers` asks for
register code and `limit` bounds the nesting of calls. -/
structure Session where
  types : TypeTable
  hosts : Hosts
  bodies : Array HostBody
  lowers : Bool
  limit : Option Nat

/-- A function to be registered: its name, its type and what it does. -/
structure HostEntry where
  name : Name
  type : Ty
  body : HostBody

namespace Session

/-- Limit on nested calls unless another one is given. -/
def defaultLimit : Nat := 10000

/-- A session without host functions. -/
def empty : Session :=
  ⟨.empty, ⟨[], [], 0⟩, #[], false, some defaultLimit⟩

/-- Host functions for entries, numbered from `first` on. -/
def number (first : Nat) : List HostEntry → List HostFunc
  | [] => []
  | e :: rest => ⟨e.name, e.type, first⟩ :: number (first + 1) rest

/-- Register a predeclared function. -/
def addFunc (s : Session) (e : HostEntry) : Session :=
  { s with
    hosts := { s.hosts with
      funcs := s.hosts.funcs ++ [⟨e.name, e.type, s.hosts.count⟩], count := s.hosts.count + 1 }
    bodies := s.bodies.push e.body }

/-- Register a package. -/
def addPackage (s : Session) (path : String) (members : List HostEntry) : Session :=
  { s with
    hosts := { s.hosts with
      packages := s.hosts.packages ++ [⟨path, number s.hosts.count members⟩]
      count := s.hosts.count + members.length }
    bodies := s.bodies ++ (members.map HostEntry.body).toArray }

/-- A registered function is found under its name. -/
theorem addFunc_find (s : Session) (e : HostEntry) :
    findHost (s.addFunc e).hosts.funcs e.name = some ⟨e.name, e.type, s.hosts.count⟩ := by
  simp [addFunc, findHost]

/-- A registered function gets the next number. -/
theorem addFunc_count (s : Session) (e : HostEntry) :
    (s.addFunc e).hosts.count = s.hosts.count + 1 := rfl

end Session

end ScriptCore

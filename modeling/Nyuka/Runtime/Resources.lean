import Mathlib.Logic.Function.Basic
import Nyuka.Runtime.Net

/-! The per-invocation resource table: what the guest's handles stand for. -/
namespace Nyuka
namespace Runtime

/-- A request and the response it has had. -/
structure HeldRequest extends Request where
  response : Option Response

/-- Anything the guest can hold a handle to. -/
inductive Resource (Html : Type) where
  | buffer (bytes : Bytes)
  | request (request : HeldRequest)
  | node (html : Html) (id : ℕ)
  | nodeList (html : Html) (ids : List ℕ)

/-- Handles, and the objects behind them. -/
structure ResourceTable (Html : Type) where
  entries : ℤ → Option (Resource Html)
  next : ℤ

namespace ResourceTable
variable {Html : Type} {t : ResourceTable Html} {id other : ℤ} {r : HeldRequest}

def empty : ResourceTable Html := ⟨fun _ => none, 0⟩

def set (t : ResourceTable Html) (id : ℤ) (resource : Resource Html) : ResourceTable Html :=
  { t with entries := Function.update t.entries id (some resource) }

/-- Stores a resource and returns its handle. Handles start at 1. -/
def insert (t : ResourceTable Html) (resource : Resource Html) : ResourceTable Html × ℤ :=
  (set { t with next := t.next + 1 } (t.next + 1) resource, t.next + 1)

/-- The request that a handle names, if that is what it refers to. -/
def request (t : ResourceTable Html) (id : ℤ) : Option HeldRequest :=
  match t.entries id with
  | some (.request r) => some r
  | _ => none

def respond (t : ResourceTable Html) (id : ℤ) (response : Response) : ResourceTable Html :=
  match t.request id with
  | some r => t.set id (.request { r with response := some response })
  | none => t

theorem request_eq_some : t.request id = some r ↔ t.entries id = some (.request r) := by
  rw [request]
  constructor
  · intro h
    split at h
    · rename_i found hfound
      rw [hfound, Option.some.inj h]
    · cases h
  · intro h
    rw [h]

theorem request_congr {t' : ResourceTable Html} (h : t'.entries id = t.entries id) :
    t'.request id = t.request id := by
  rw [request, request, h]

theorem respond_self {response : Response} (h : t.request id = some r) :
    (t.respond id response).entries id =
      some (.request { r with response := some response }) := by
  rw [respond, h]
  exact Function.update_self _ _ _

theorem respond_of_none {response : Response} (h : t.request id = none) :
    t.respond id response = t := by
  rw [respond, h]

theorem respond_of_ne {response : Response} (h : other ≠ id) :
    (t.respond id response).entries other = t.entries other := by
  rw [respond]
  cases t.request id with
  | none => rfl
  | some found => exact Function.update_of_ne h _ _

end ResourceTable

end Runtime
end Nyuka

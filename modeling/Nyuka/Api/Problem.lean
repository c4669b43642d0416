import Nyuka.Domain.Model

/-! The problem document a handler answers an error with, and the one it makes of each domain
error. The request path and the trace id are the middleware's and are left out. -/
namespace Nyuka
namespace Api

structure FieldError where
  field : String
  message : String
deriving DecidableEq, Repr

structure Problem where
  kind : String
  title : String
  status : ℕ
  detail : Option String := none
  errors : List FieldError := []
  retryAfter : Option ℕ := none
deriving DecidableEq, Repr

namespace Problem

def new (status : ℕ) (kind title detail : String) : Problem where
  kind := s!"/problems/{kind}"
  title := title
  status := status
  detail := some detail

def notFound (what : String) : Problem :=
  new 404 "not-found" "Not found" s!"No {what} matches that identifier."

def invalid (detail : String) : Problem := new 400 "invalid-request" "Invalid request" detail

def conflict (detail : String) : Problem := new 409 "conflict" "Conflict" detail

def internal : Problem :=
  new 500 "internal" "Internal server error"
    "Something went wrong on the server. The failure has been logged."

def ofDomainError : DomainError → Problem
  | .notFound => notFound "resource"
  | .conflict detail => conflict detail
  | .invalid detail => invalid detail
  | .source message retryable =>
    { new 502 "source-unavailable" "The source could not be reached" message with
      retryAfter := if retryable then some 60 else none }
  | .unsupportedCapability capability =>
    new 501 "unsupported-capability" "Unsupported source capability"
      s!"This build does not provide {capability}, which the source requires."
  | .insufficientStorage =>
    new 507 "insufficient-storage" "The library has no space left"
      "Free space on the library volume and retry."
  | .storage _ => internal
  | .internal _ => internal

/-- The handlers' own mapping: what is missing is named. -/
def ofMissing (error : DomainError) (what : String) : Problem :=
  match error with
  | .notFound => notFound what
  | other => ofDomainError other

/-- Every domain error is answered as an error. -/
theorem status_ofMissing (error : DomainError) (what : String) :
    400 ≤ (ofMissing error what).status ∧ (ofMissing error what).status < 600 := by
  cases error <;> simp [ofMissing, ofDomainError, notFound, conflict, invalid, internal, new]

/-- An answer about a fault of the server does not depend on what the fault was. -/
theorem detail_of_fault {error : DomainError} {what : String}
    (h : (ofMissing error what).status = 500) : ofMissing error what = internal := by
  cases error <;> simp [ofMissing, ofDomainError, notFound, conflict, invalid, new] at h ⊢

end Problem

end Api
end Nyuka

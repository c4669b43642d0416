import Nyuka.Domain.Library

/-! Page lists: what a guest returns for a chapter, and what the adapter makes of it. -/
namespace Nyuka
namespace Runtime

namespace Models

/-- What a page of a guest holds. An image is the handle of a canvas resource. -/
inductive PageContent where
  | url (url : String) (context : Option (List (String × String)))
  | text (text : String)
  | image (rid : Int32)
  | zip (archive path : String)
deriving DecidableEq

structure Page where
  content : PageContent
  thumbnail : Option String := none
  hasDescription : Bool := false
  description : Option String := none
deriving DecidableEq

/-- The page is an image that the guest holds. -/
def Page.IsImage (p : Page) : Prop := ∃ rid, p.content = .image rid

/-- The page is one that a download can fetch. -/
def Page.IsUrl (p : Page) : Prop := ∃ url context, p.content = .url url context

end Models

/-- Maps a page, dropping ones this host cannot serve. -/
def mapPage (index : UInt32) (p : Models.Page) : Option SourcePage :=
  match p.content with
  | .url url _ => some ⟨index, .url url [], p.description⟩
  | .text text => some ⟨index, .text text, p.description⟩
  | .zip archive path => some ⟨index, .zip archive path, p.description⟩
  | .image _ => none

/-- `SourceRuntime::pages` of the list the guest returned. -/
def pages (listed : List Models.Page) : List SourcePage :=
  listed.zipIdx.filterMap fun (p, i) => mapPage (.ofNat i) p

/-- The reference that a page is fetched by. -/
def fetchRef (index : UInt32) (p : Models.Page) : Option PageRef :=
  match p.content with
  | .url url _ => some ⟨index, url, []⟩
  | _ => none

/-- The references of the pages that can be fetched, under the indexes of their places. -/
def fetchable (listed : List Models.Page) : List PageRef :=
  listed.zipIdx.filterMap fun (p, i) => fetchRef (.ofNat i) p

variable {listed : List Models.Page}

theorem fetchRef_index {index : UInt32} {p : Models.Page} {ref : PageRef}
    (h : fetchRef index p = some ref) : ref.index = index := by
  unfold fetchRef at h
  split at h
  · cases h; rfl
  · cases h

/-- A list of which every page can be fetched keeps them all, in their places. -/
theorem fetchable_of_urls (h : ∀ p ∈ listed, p.IsUrl) :
    (fetchable listed).length = listed.length ∧
      ∀ i (hi : i < listed.length) (hi' : i < (fetchable listed).length), ∃ url context,
        listed[i].content = .url url context ∧ (fetchable listed)[i] = ⟨.ofNat i, url, []⟩ := by
  unfold fetchable
  suffices hfrom : ∀ k, let refs := (listed.zipIdx k).filterMap fun (p, i) => fetchRef (.ofNat i) p
      refs.length = listed.length ∧ ∀ i (hi : i < listed.length) (hi' : i < refs.length),
        ∃ url context, listed[i].content = .url url context ∧ refs[i] = ⟨.ofNat (k + i), url, []⟩ by
    simpa using hfrom 0
  induction listed with
  | nil => exact fun k => ⟨rfl, fun i hi => by cases hi⟩
  | cons p rest ih =>
    intro k
    obtain ⟨url, context, hurl⟩ := h p List.mem_cons_self
    have hcons : ((p :: rest).zipIdx k).filterMap (fun (p, i) => fetchRef (.ofNat i) p) =
        ⟨.ofNat k, url, []⟩ ::
          (rest.zipIdx (k + 1)).filterMap fun (p, i) => fetchRef (.ofNat i) p := by
      simp [List.zipIdx_cons, fetchRef, hurl]
    obtain ⟨hlen, hat⟩ := ih (fun q hq => h q (List.mem_cons_of_mem p hq)) (k + 1)
    rw [hcons]
    refine ⟨by rw [List.length_cons, List.length_cons, hlen], fun i hi hi' => ?_⟩
    cases i with
    | zero => exact ⟨url, context, hurl, rfl⟩
    | succ i =>
      obtain ⟨url', context', hurl', href⟩ :=
        hat i (Nat.lt_of_succ_lt_succ hi) (Nat.lt_of_succ_lt_succ hi')
      refine ⟨url', context', hurl', ?_⟩
      rw [List.getElem_cons_succ, href, Nat.add_right_comm, Nat.add_assoc]

/-- Indexes that do not wrap are in the order of the list. -/
theorem fetchable_sorted (h : listed.length ≤ 2 ^ 32) :
    (fetchable listed).Pairwise fun a b => a.index < b.index := by
  have hplaces : listed.zipIdx.Pairwise fun a b => a.2 < b.2 ∧ b.2 < listed.length := by
    rw [List.pairwise_iff_getElem]
    intro i j hi hj hij
    simp only [List.length_zipIdx] at hj
    simpa using ⟨hij, hj⟩
  refine hplaces.filterMap _ fun a b hab r hr r' hr' => ?_
  obtain ⟨hlt, hbound⟩ := hab
  rw [fetchRef_index hr, fetchRef_index hr', UInt32.lt_iff_toNat_lt, UInt32.toNat_ofNat',
    UInt32.toNat_ofNat', Nat.mod_eq_of_lt (by omega), Nat.mod_eq_of_lt (by omega)]
  exact hlt

end Runtime
end Nyuka

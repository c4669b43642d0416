import Nyuka.Auth.Routes
import Nyuka.Foundation.Urls

/-! Where a browser goes that is sent to a return target which the server took for a path. -/
namespace Nyuka
namespace Auth
open Urls

/-- A second slash behind the first one, with tabs and line ends between them. -/
def HiddenSlash (target : String) : Prop :=
  ∃ blanks rest, target.toList = '/' :: (blanks ++ '/' :: rest) ∧ blanks ≠ [] ∧
    ∀ c ∈ blanks, isTabOrNewline c = true

section
variable {target : String}

theorem isSafeReturnTo_iff : isSafeReturnTo target = true ↔ "/".toList <+: target.toList ∧
    ¬ "//".toList <+: target.toList ∧ '\\' ∉ target.toList ∧ ¬ "://".toList <:+: target.toList := by
  simp only [isSafeReturnTo, Bool.and_eq_true, Bool.not_eq_true', decide_eq_true_eq,
    List.isPrefixOf_iff_prefix, Bool.eq_false_iff, ne_eq, List.contains_iff_mem, and_assoc]

/-- The hidden slash is the only way to a second one. -/
theorem slashNext_of_safe {rest : List Char} (h : isSafeReturnTo target = true)
    (htarget : target.toList = '/' :: rest) : SlashNext rest ↔ HiddenSlash target := by
  obtain ⟨-, hdouble, hback, -⟩ := isSafeReturnTo_iff.mp h
  constructor
  · rintro ⟨blanks, c, rest', rfl, hc, hblanks⟩
    have hslash : c = '/' := by
      simp only [isSlash, Bool.or_eq_true, decide_eq_true_eq] at hc
      refine hc.resolve_right ?_
      rintro rfl
      exact hback (by simp [htarget])
    subst hslash
    refine ⟨blanks, rest', htarget, ?_, hblanks⟩
    rintro rfl
    exact hdouble ⟨rest', htarget.symm⟩
  · rintro ⟨blanks, rest', heq, -, hblanks⟩
    rw [htarget] at heq
    exact ⟨blanks, '/', rest', (List.cons.inj heq).2, by decide, hblanks⟩

/-- An accepted target leads to the application's own origin if and only if it has no hidden slash
or names that origin behind it. -/
theorem returnTo_sameOrigin_iff {H : Type} (host : List Char → Option H) (base : Origin H)
    (h : isSafeReturnTo target = true) : resolve host base target.toList = some base ↔
      (HiddenSlash target →
        authority host base.scheme ((stripped target.toList).dropWhile isSlash) = some base) := by
  obtain ⟨⟨rest, hrest⟩, -⟩ := isSafeReturnTo_iff.mp h
  have htarget : target.toList = '/' :: rest := hrest.symm
  have hnext := slashNext_of_safe h htarget
  rw [htarget]
  by_cases hhidden : HiddenSlash target
  · rw [resolve_of_slashNext (hnext.mpr hhidden)]
    exact ⟨fun hsame _ => hsame, fun hsame => hsame hhidden⟩
  · rw [resolve_of_not_slashNext fun hslash => hhidden (hnext.mp hslash)]
    exact ⟨fun _ hslash => absurd hslash hhidden, fun _ => rfl⟩

end

/-- A domain as a browser reads it, in small letters. -/
def domain (s : List Char) : Option String := some (String.ofList (s.map Char.toLower))

def application : Origin String := ⟨.https, "nyuka.test", none⟩

theorem returnTo_library : resolve domain application "/library".toList = some application ↔
    (HiddenSlash "/library" → authority domain application.scheme
      ((stripped "/library".toList).dropWhile isSlash) = some application) :=
  returnTo_sameOrigin_iff domain application (by decide)

/-- A tab between the slashes passes the check and is removed by the browser. -/
theorem tab_leaves_origin : ¬ ∀ (host : List Char → Option String) (base : Origin String)
    (target : String), isSafeReturnTo target = true →
      resolve host base target.toList = some base := by
  intro h
  have hsame := h domain application "/\t/evil.test" (by decide)
  exact absurd hsame (by decide)

end Auth
end Nyuka

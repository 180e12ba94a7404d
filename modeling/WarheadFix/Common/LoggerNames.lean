import WarheadFix.Common.Log

/-! Which logger a type gets: the registered name that is the type or its longest prefix before
a dot, and the root otherwise. The search cuts one part off at a time. -/

namespace Warhead.Log
open Lib

def Covers (name type : Bytes) : Prop := name = type ∨ ∃ rest, type = name ++ 46 :: rest

section Names
variable {name type parent rest : Bytes}

theorem Covers.refl (type : Bytes) : Covers type type := .inl rfl

theorem Covers.length_le (h : Covers name type) : name.length ≤ type.length := by
  rcases h with rfl | ⟨rest, rfl⟩
  · exact le_rfl
  · rw [List.length_append]
    exact Nat.le_add_right _ _

theorem covers_of_no_dot (h : 46 ∉ type) : Covers name type ↔ name = type := by
  refine or_iff_left ?_
  rintro ⟨rest, rfl⟩
  exact h (List.mem_append_right _ List.mem_cons_self)

theorem covers_split (h : 46 ∉ rest) :
    Covers name (parent ++ 46 :: rest) ↔ name = parent ++ 46 :: rest ∨ Covers name parent := by
  refine or_congr_right ?_
  constructor
  · rintro ⟨after, hafter⟩
    rcases List.append_eq_append_iff.mp hafter with ⟨mid, rfl, hmid⟩ | ⟨mid, rfl, hmid⟩
    · cases mid with
      | nil => exact .inl (List.append_nil _)
      | cons c mid =>
        -- A dot further on would be one after the last.
        obtain ⟨-, rfl⟩ := List.cons.inj hmid
        exact absurd (List.mem_append_right _ List.mem_cons_self) h
    · cases mid with
      | nil => exact .inl (List.append_nil _).symm
      | cons c mid =>
        obtain ⟨rfl, -⟩ := List.cons.inj hmid
        exact .inr ⟨mid, rfl⟩
  · rintro (rfl | ⟨mid, rfl⟩)
    · exact ⟨rest, rfl⟩
    · exact ⟨mid ++ 46 :: rest, List.append_assoc _ _ _⟩

theorem parentLogger_split (h : 46 ∈ type) :
    ∃ rest, type = parentLogger type ++ 46 :: rest ∧ 46 ∉ rest := by
  have hne : type.rdropWhile (· != 46) ≠ [] := by
    intro hnil
    have hall := List.rdropWhile_eq_nil_iff.mp hnil 46 h
    exact absurd hall (by decide)
  have hlast : (type.rdropWhile (· != 46)).getLast hne = 46 := by
    have hnot := List.rdropWhile_last_not (fun c : UInt8 => c != 46) type hne
    simpa using hnot
  refine ⟨type.rtakeWhile (· != 46), ?_, fun hmem => ?_⟩
  · have hdot := List.dropLast_append_getLast hne
    rw [hlast] at hdot
    rw [parentLogger, if_pos h, ← List.singleton_append, ← List.append_assoc, hdot,
      List.rdropWhile_append_rtakeWhile]
  · exact absurd (List.mem_rtakeWhile_imp hmem) (by decide)

theorem covers_parentLogger (h : 46 ∈ type) :
    Covers name type ↔ name = type ∨ Covers name (parentLogger type) := by
  obtain ⟨rest, hsplit, hrest⟩ := parentLogger_split h
  have hiff : Covers name (parentLogger type ++ 46 :: rest) ↔
      name = parentLogger type ++ 46 :: rest ∨ Covers name (parentLogger type) := covers_split hrest
  rwa [← hsplit] at hiff

end Names

/-- The logger that the type should get: the longest of the registered names that cover it, and
the root where none does. -/
structure Resolves (registry : Registry) (type name : Bytes) (logger : Logger) : Prop where
  registered : registry.lookup name = some logger
  nearest : (Covers name type ∧ ∀ other ∈ registry, Covers other type →
      other.length ≤ name.length) ∨
    (name = LOGGER_ROOT ∧ ∀ other ∈ registry, ¬Covers other type)

def Unresolved (registry : Registry) (type : Bytes) : Prop :=
  (∀ other ∈ registry, ¬Covers other type) ∧ LOGGER_ROOT ∉ registry

section Search
variable {registry : Registry} {type name : Bytes} {logger : Logger}

theorem Resolves.mem (h : Resolves registry type name logger) : name ∈ registry := by
  rw [← AList.lookup_isSome, h.registered]
  rfl

theorem Resolves.self (h : registry.lookup type = some logger) :
    Resolves registry type type logger :=
  ⟨h, .inl ⟨.refl type, fun _ _ => Covers.length_le⟩⟩

theorem Resolves.of_parent {parent : Bytes} (h : Resolves registry parent name logger)
    (hcovers : ∀ other ∈ registry, (Covers other type ↔ Covers other parent)) :
    Resolves registry type name logger := by
  refine ⟨h.registered, ?_⟩
  rcases h.nearest with ⟨hcover, hlongest⟩ | ⟨hroot, hnone⟩
  · left
    refine ⟨(hcovers name h.mem).mpr hcover, ?_⟩
    intro other hother hc
    exact hlongest other hother ((hcovers other hother).mp hc)
  · right
    exact ⟨hroot, fun other hother hc => hnone other hother ((hcovers other hother).mp hc)⟩

theorem Covers.starts (h : Covers name type) : name <+: type := by
  rcases h with rfl | ⟨rest, rfl⟩
  · exact List.prefix_rfl
  · exact List.prefix_append _ _

theorem Resolves.unique {name' : Bytes} {logger' : Logger} (h : Resolves registry type name logger)
    (h' : Resolves registry type name' logger') : name = name' ∧ logger = logger' := by
  have hname : name = name' := by
    rcases h.nearest with ⟨hcover, hlongest⟩ | ⟨hroot, hnone⟩
    · rcases h'.nearest with ⟨hcover', hlongest'⟩ | ⟨-, hnone'⟩
      · have hlength : name.length = name'.length :=
          le_antisymm (hlongest' name h.mem hcover) (hlongest name' h'.mem hcover')
        exact (List.prefix_of_prefix_length_le hcover.starts hcover'.starts hlength.le).eq_of_length
          hlength
      · exact absurd hcover (hnone' name h.mem)
    · rcases h'.nearest with ⟨hcover', -⟩ | ⟨hroot', -⟩
      · exact absurd hcover' (hnone name' h'.mem)
      · rw [hroot, hroot']
  subst hname
  exact ⟨rfl, Option.some.inj (h.registered.symm.trans h'.registered)⟩

theorem Unresolved.not_resolves (h : Unresolved registry type) (name : Bytes) (logger : Logger) :
    ¬Resolves registry type name logger := by
  intro hres
  rcases hres.nearest with ⟨hcover, -⟩ | ⟨hroot, -⟩
  · exact h.1 name hres.mem hcover
  · exact h.2 (hroot ▸ hres.mem)

theorem getLoggerByType_spec (registry : Registry) (type : Bytes) :
    (∃ name logger, getLoggerByType registry type = some (name, logger) ∧
      Resolves registry type name logger) ∨
    (getLoggerByType registry type = none ∧ Unresolved registry type) := by
  induction type using getLoggerByType.induct registry with
  | case1 type logger h => exact .inl ⟨type, logger, getLoggerByType_self h, .self h⟩
  | case2 h =>
    have hroot : LOGGER_ROOT ∉ registry := AList.lookup_eq_none.mp h
    refine .inr ⟨by rw [getLoggerByType, h]; exact if_pos rfl, fun other hother hc => ?_, hroot⟩
    rw [(covers_of_no_dot (by decide)).mp hc] at hother
    exact hroot hother
  | case3 type h hne ih =>
    have hnot : type ∉ registry := AList.lookup_eq_none.mp h
    rw [getLoggerByType_parent h hne]
    by_cases hdot : 46 ∈ type
    · have hcovers : ∀ other ∈ registry,
          (Covers other type ↔ Covers other (parentLogger type)) := by
        intro other hother
        refine (covers_parentLogger hdot).trans (or_iff_right ?_)
        rintro rfl
        exact hnot hother
      rcases ih with ⟨name, logger, hget, hres⟩ | ⟨hget, hnone, hroot⟩
      · exact .inl ⟨name, logger, hget, hres.of_parent hcovers⟩
      · exact .inr ⟨hget, fun other hother hc => hnone other hother ((hcovers other hother).mp hc),
          hroot⟩
    · -- Nothing is above the type, and the search goes on with the root.
      have hnone : ∀ other ∈ registry, ¬Covers other type := by
        intro other hother hc
        rw [(covers_of_no_dot hdot).mp hc] at hother
        exact hnot hother
      have hparent : parentLogger type = LOGGER_ROOT := if_neg hdot
      rw [hparent] at ih ⊢
      rcases ih with ⟨name, logger, hget, hres⟩ | ⟨hget, -, hroot⟩
      · have hname : name = LOGGER_ROOT := by
          rcases hres.nearest with ⟨hc, -⟩ | ⟨hroot, -⟩
          · exact (covers_of_no_dot (by decide)).mp hc
          · exact hroot
        exact .inl ⟨name, logger, hget, hres.registered, .inr ⟨hname, hnone⟩⟩
      · exact .inr ⟨hget, hnone, hroot⟩

/-- A type gets the registered logger of its own name, or else of the longest prefix that ends
just before a dot, or else the root, and none only if there is none of these. -/
theorem getLoggerByType_longest (registry : Registry) (type : Bytes) :
    (∀ name logger, getLoggerByType registry type = some (name, logger) ↔
      Resolves registry type name logger) ∧
    (getLoggerByType registry type = none ↔ Unresolved registry type) := by
  rcases getLoggerByType_spec registry type with ⟨name, logger, hget, hres⟩ | ⟨hget, hun⟩
  · refine ⟨fun name' logger' => ⟨fun h => ?_, fun h => ?_⟩, fun h => ?_, fun h => ?_⟩
    · obtain ⟨rfl, rfl⟩ := Prod.mk.inj (Option.some.inj (hget.symm.trans h))
      exact hres
    · obtain ⟨rfl, rfl⟩ := hres.unique h
      exact hget
    · cases hget.symm.trans h
    · exact absurd hres (h.not_resolves name logger)
  · refine ⟨fun name logger => ⟨fun h => ?_, fun h => ?_⟩, fun _ => hun, fun _ => hget⟩
    · cases hget.symm.trans h
    · exact absurd h (hun.not_resolves name logger)

end Search
end Warhead.Log

/-
Resolving everything.

The pass goes through the numbers of the classes and ends where the last number is
when it gets there, so that it comes to the classes that a hook registers on the
way.  A class that it comes to may be settled already, by what was resolved before
it.  Between operations nothing is being linked, and then a class that does not
come out resolved has failed with the error that is listed, also if it failed as
part of a cycle that was entered elsewhere.

`SettledFrom` is what is true of the registry and the list from a position on.  The
theorem of this file is `Run.resolve_all`.
-/
import Lineage.Proofs.Lifecycle

namespace Lineage
namespace Registry

variable {r s : Registry} {c : ClassId} {position depth : Nat} {list : List (ClassId × Error)}

/-- The class is resolved or has failed. -/
def Settled (s : Registry) (c : ClassId) : Prop :=
  (∃ links, s.Resolved c links) ∨ ∃ e, s.standing? c = some (.failed e)

/-- The classes from a position on are settled, and those that have failed are
listed by number. -/
structure SettledFrom (s : Registry) (position : Nat) (list : List (ClassId × Error)) : Prop where
  settled : ∀ c, s.Issued c → position ≤ c.index → s.Settled c
  listed : ∀ c e, (c, e) ∈ list ↔ position ≤ c.index ∧ s.standing? c = some (.failed e)
  sorted : list.Pairwise fun a b => a.1.index < b.1.index

/-! ## One position -/

theorem settledFrom_nil (h : s.size ≤ position) : s.SettledFrom position [] where
  settled _ hc hle := absurd (Nat.lt_of_lt_of_le hc h) (Nat.not_lt.mpr hle)
  listed c e := by
    simp only [List.not_mem_nil, false_iff, not_and]
    intro hle hfailed
    exact absurd (Nat.lt_of_lt_of_le (Issued.of_standing? hfailed) h) (Nat.not_lt.mpr hle)
  sorted := .nil

/-- Among the classes from a position on is the one at that position. -/
theorem le_index_iff (hsize : position < UInt32.size) :
    position ≤ c.index ↔ c = .ofIndex position ∨ position + 1 ≤ c.index := by
  rw [← ClassId.index_inj, ClassId.index_ofIndex hsize]
  omega

theorem settledFrom_iff_of_resolved {links : Links} (hsize : position < UInt32.size)
    (hc : s.Resolved (.ofIndex position) links) :
    s.SettledFrom position list ↔ s.SettledFrom (position + 1) list := by
  have hlisted : ∀ c e, position ≤ c.index ∧ s.standing? c = some (.failed e) ↔
      position + 1 ≤ c.index ∧ s.standing? c = some (.failed e) := fun c e => by
    rw [le_index_iff hsize, or_and_right, or_iff_right]
    rintro ⟨rfl, hfailed⟩
    rw [hc] at hfailed
    cases hfailed
  refine ⟨fun h => ⟨fun c hissued hle => h.settled c hissued (Nat.le_of_succ_le hle), ?_, h.sorted⟩,
    fun h => ⟨fun c hissued hle => ?_, ?_, h.sorted⟩⟩
  · exact fun c e => (h.listed c e).trans (hlisted c e)
  · rcases (le_index_iff hsize).mp hle with rfl | hlater
    · exact .inl ⟨links, hc⟩
    · exact h.settled c hissued hlater
  · exact fun c e => (h.listed c e).trans (hlisted c e).symm

/-- Put in front of what is listed from the next position on, a failure completes the
list. -/
theorem settledFrom_cons_iff {e : Error} (hsize : position < UInt32.size)
    (hc : s.standing? (.ofIndex position) = some (.failed e)) :
    s.SettledFrom position ((.ofIndex position, e) :: list) ↔
      s.SettledFrom (position + 1) list := by
  have hindex := ClassId.index_ofIndex hsize
  constructor
  · intro h
    obtain ⟨hbefore, hsorted⟩ := List.pairwise_cons.mp h.sorted
    refine ⟨fun c hissued hle => h.settled c hissued (Nat.le_of_succ_le hle), fun c e' => ?_,
      hsorted⟩
    constructor
    · intro hmem
      have hlt := hbefore _ hmem
      rw [hindex] at hlt
      exact ⟨hlt, ((h.listed c e').mp (List.mem_cons_of_mem _ hmem)).2⟩
    · rintro ⟨hle, hfailed⟩
      have hmem := (h.listed c e').mpr ⟨Nat.le_of_succ_le hle, hfailed⟩
      refine (List.mem_cons.mp hmem).resolve_left fun heq => ?_
      rw [(Prod.mk.inj heq).1, hindex] at hle
      omega
  · intro h
    refine ⟨fun c hissued hle => ?_, fun c e' => ?_, List.pairwise_cons.mpr ⟨?_, h.sorted⟩⟩
    · rcases (le_index_iff hsize).mp hle with rfl | hlater
      · exact .inr ⟨e, hc⟩
      · exact h.settled c hissued hlater
    · rw [List.mem_cons, h.listed, le_index_iff hsize, or_and_right, Prod.mk.injEq]
      refine or_congr_left (and_congr_right ?_)
      rintro rfl
      rw [hc]
      simp [eq_comm]
    · intro entry hentry
      rw [hindex]
      exact ((h.listed entry.1 entry.2).mp hentry).1

/-- If the class at the position has failed, the list begins with it. -/
theorem SettledFrom.eq_cons {e : Error} (h : s.SettledFrom position list)
    (hsize : position < UInt32.size) (hc : s.standing? (.ofIndex position) = some (.failed e)) :
    ∃ rest, list = (.ofIndex position, e) :: rest := by
  have hmem : (ClassId.ofIndex position, e) ∈ list :=
    (h.listed _ e).mpr ⟨(le_index_iff hsize).mpr (.inl rfl), hc⟩
  obtain _ | ⟨first, rest⟩ := list
  · cases hmem
  · rcases List.mem_cons.mp hmem with heq | hlater
    · exact ⟨rest, by rw [heq]⟩
    · -- the first entry would stand before the position
      have hlt := (List.pairwise_cons.mp h.sorted).1 _ hlater
      have hle := ((h.listed first.1 first.2).mp List.mem_cons_self).1
      rw [ClassId.index_ofIndex hsize] at hlt
      omega

/-! ## The pass -/

/-- Where nothing is being linked, an attempt to resolve a class settles it, and the
error is the one that is stored. -/
theorem attempt_resolveId (hr : r.Indexed) (hidle : r.resolving = []) (hc : r.Issued c) :
    ((resolveId depth c).attempt r).Meets
      (fun result s => Advances r s ∧ match result with
        | .ok _ => ∃ links, s.Resolved c links
        | .error e => s.standing? c = some (.failed e))
      (fun _ _ => False) True := by
  refine Eval.meets_attempt (resolveId_advances depth c r hr hc) (fun _ _ h => h) ?_ ?_
  · rintro e s ⟨hs, e', he, hfailed | hcycle⟩
    · cases he
      exact ⟨hs, hfailed⟩
    · have hnone : s.cycle? c = none := cycle?_eq_none_iff.mpr (by simp [hs.resolving, hidle])
      rw [hnone] at hcycle
      cases hcycle
  · rintro id s ⟨-, e, he, -⟩
    cases he

/-- By induction on the positions that are left: the pass settles all of them, and
never asks for a class that is not there. -/
theorem resolveFrom_settles (depth fuel : Nat) :
    ∀ position r, Indexed r → r.resolving = [] →
      (resolveFrom (resolveId depth) fuel position r).Meets
        (fun list s => Advances r s ∧ (s.size < UInt32.size → s.SettledFrom position list))
        (fun _ _ => False) True := by
  induction fuel with
  | zero => exact fun _ _ _ _ => trivial
  | succ fuel ih =>
    intro position r hr hidle
    unfold resolveFrom
    rw [Eval.bind_apply, Eval.get_apply]
    dsimp only
    split
    · rename_i hlt
      refine Eval.meets_bind (attempt_resolveId hr hidle (issued_ofIndex hlt)) ?_
      rintro result t ⟨ht, hresult⟩
      refine Eval.meets_bind (ih (position + 1) t (ht.indexed hr) (ht.resolving.trans hidle)) ?_
      rintro rest s ⟨hs, hrest⟩
      have hbelow : s.size < UInt32.size → position < UInt32.size := fun hsize =>
        Nat.lt_of_lt_of_le hlt
          (Nat.le_of_lt (Nat.lt_of_le_of_lt (ht.trans hs).grows.size_le hsize))
      cases result with
      | ok _ =>
        obtain ⟨links, hlinks⟩ := hresult
        exact ⟨ht.trans hs, fun hsize =>
          (settledFrom_iff_of_resolved (hbelow hsize) (hs.grows.resolved hlinks)).mpr (hrest hsize)⟩
      | error e =>
        exact ⟨ht.trans hs, fun hsize =>
          (settledFrom_cons_iff (hbelow hsize) (hs.grows.failed hresult)).mpr (hrest hsize)⟩
    · rename_i hend
      exact ⟨.refl r, fun _ => settledFrom_nil (Nat.not_lt.mp hend)⟩

/-- A pass over settled classes lists the failures and does nothing. -/
theorem SettledFrom.resolveFrom_eq (h : s.SettledFrom position list) (hsize : s.size < UInt32.size)
    (depth fuel : Nat) (hle : position ≤ s.size) (hfuel : s.size < position + fuel) :
    resolveFrom (resolveId (depth + 1)) fuel position s = .value list s := by
  induction fuel generalizing position list with
  | zero => omega
  | succ fuel ih =>
    rw [resolveFrom, Eval.bind_apply, Eval.get_apply]
    dsimp only
    split
    · rename_i hlt
      have hbelow := Nat.lt_trans hlt hsize
      have hself : position ≤ (ClassId.ofIndex position).index :=
        (le_index_iff hbelow).mpr (.inl rfl)
      rw [Eval.bind_apply, Eval.attempt]
      rcases h.settled (.ofIndex position) (issued_ofIndex hlt) hself with ⟨links, hc⟩ | ⟨e, hc⟩
      · have hrest := (settledFrom_iff_of_resolved hbelow hc).mp h
        rw [resolveId_of_resolved depth hc]
        dsimp only
        rw [Eval.bind_apply, ih hrest hlt (by omega)]
        rfl
      · obtain ⟨rest, rfl⟩ := h.eq_cons hbelow hc
        have hrest := (settledFrom_cons_iff hbelow hc).mp h
        rw [resolveId_of_failed depth hc]
        dsimp only
        rw [Eval.bind_apply, ih hrest hlt (by omega)]
        rfl
    · rename_i hend
      obtain rfl : list = [] := List.eq_nil_iff_forall_not_mem.mpr fun entry hentry => by
        obtain ⟨hlater, hfailed⟩ := (h.listed entry.1 entry.2).mp hentry
        have hissued : entry.1.index < s.size := Issued.of_standing? hfailed
        omega
      rfl

/-- What is true after everything has been resolved, and `list` has been returned. -/
structure ResolvedAll (s : Registry) (list : List (ClassId × Error)) : Prop where
  settled : ∀ c, s.Issued c →
    (∃ links, s.links c = .ok links) ∨ ∃ e, s.resolutionError c = .ok (some e)
  /-- Listed are the failed classes with their errors, and nothing else. -/
  listed : ∀ c e, (c, e) ∈ list ↔ s.resolutionError c = .ok (some e)
  sorted : list.Pairwise fun a b => a.1.index < b.1.index
  once : (list.map Prod.fst).Nodup
  /-- To resolve everything again gives the list again.  The state is the same, to the
  events in it: nothing is evaluated, and no hook is asked. -/
  again : ∀ depth, s.size < depth →
    perform depth .resolveAll s = .value (.failures list) s

theorem SettledFrom.resolvedAll (h : s.SettledFrom 0 list) (hsize : s.size < UInt32.size) :
    s.ResolvedAll list where
  settled c hc := (h.settled c hc (Nat.zero_le _)).imp
    (fun ⟨links, hl⟩ => ⟨links, links_eq_ok_iff.mpr hl⟩)
    fun ⟨e, he⟩ => ⟨e, resolutionError_eq_ok_iff.mpr he⟩
  listed c e := by
    rw [h.listed, resolutionError_eq_ok_iff]
    exact and_iff_right (Nat.zero_le _)
  sorted := h.sorted
  once := by
    refine List.Pairwise.map Prod.fst (fun a b hlt heq => ?_) h.sorted
    rw [heq] at hlt
    exact Nat.lt_irrefl _ hlt
  again depth hdepth := by
    obtain ⟨k, rfl⟩ := Nat.exists_eq_succ_of_ne_zero (Nat.ne_zero_of_lt hdepth)
    have hpass := h.resolveFrom_eq hsize k (k + 1) (Nat.zero_le _) (by omega)
    rw [perform, Eval.bind_apply, resolveAll, hpass]
    rfl

/-- Whatever has been done to a registry before, and whatever its hook supplies: if resolving
everything comes to an end with numbers left, it is answered with a list, every class that is
there then is resolved or has failed, and the list is that of the failures. -/
theorem Run.resolve_all {config : Config} {ops : List Operation} (h : Run (new config) ops r)
    (hs : (perform depth .resolveAll r).state? = some s) (hsize : s.size < UInt32.size) :
    ∃ list, perform depth .resolveAll r = .value (.failures list) s ∧ s.ResolvedAll list := by
  have hpass := resolveFrom_settles depth depth 0 r h.idle.1 h.idle.2.1
  rw [perform, Eval.bind_apply, resolveAll] at hs ⊢
  cases hrun : resolveFrom (resolveId depth) depth 0 r with
  | value list t =>
    rw [hrun] at hs hpass
    cases hs
    exact ⟨list, rfl, (hpass.2 hsize).resolvedAll hsize⟩
  | failure f t =>
    rw [hrun] at hpass
    exact hpass.elim
  | tooDeep =>
    rw [hrun] at hs
    cases hs

/-- The hook supplies an interface for the first class, and a class that the constant of
the last one mentions, whose parent is missing.  The classes between are each other's
parent. -/
theorem Run.resolve_all_with_hook :
    let decls : List ClassDecl :=
      [{ name := ⟨"A"⟩, interfaces := [⟨"I"⟩] },
        { name := ⟨"C"⟩, parent := some ⟨"D"⟩ }, { name := ⟨"D"⟩, parent := some ⟨"C"⟩ },
        .addConstant { name := "K", value := .pending (.expr (.constant (.named ⟨"E"⟩) "X")) }
          { name := ⟨"F"⟩ }]
    let hook : Autoloader := .ofRules
      [{ requested := some ⟨"I"⟩, supply := some fun name => { name, kind := .interface } },
        { requested := some ⟨"E"⟩, supply := some fun name => { name, parent := some ⟨"Ghost"⟩ } }]
    let failures : List (ClassId × Error) :=
      [(⟨1⟩, .inheritanceCycle "C" ["C", "D", "C"]), (⟨2⟩, .inheritanceCycle "C" ["C", "D", "C"]),
        (⟨3⟩, .classNotFound "Ghost"), (⟨5⟩, .classNotFound "Ghost")]
    ∃ r s, Run (new {}) (decls.map .register ++ [.setAutoloader hook]) r ∧ r.size = 4 ∧
      perform 7 .resolveAll r = .value (.failures failures) s ∧ s.size = 6 ∧
      s.ResolvedAll failures := by
  intro decls hook failures
  have hresults : (performAll 1 (decls.map .register ++ [.setAutoloader hook]) (new {})).bind
      (fun r => (perform 7 .resolveAll r).state?.map fun s => (r.size, s.size)) = some (4, 6) := by
    decide +kernel
  have hlisted : (performAll 1 (decls.map .register ++ [.setAutoloader hook]) (new {})).bind
      (fun r => (resolveAll 7 r).answer?.bind Except.toOption) = some failures := by
    decide +kernel
  obtain ⟨r, hr, hresults⟩ := Option.bind_eq_some_iff.mp hresults
  obtain ⟨s, hs, hresults⟩ := Option.map_eq_some_iff.mp hresults
  obtain ⟨hbefore, hafter⟩ := Prod.mk.inj hresults
  have hsmall : s.size < UInt32.size := by rw [hafter]; decide
  have hrun : Run (new {}) (decls.map .register ++ [.setAutoloader hook]) r := .of_performAll hr
  obtain ⟨list, hlist, hall⟩ := Run.resolve_all hrun hs hsmall
  obtain ⟨_, _, hpass, hreturn⟩ := Eval.bind_eq_value_iff.mp hlist
  cases hreturn
  rw [hr, Option.bind_some, hpass] at hlisted
  obtain rfl : list = failures := Option.some.inj hlisted
  exact ⟨r, s, hrun, hbefore, hlist, hafter, hall⟩

end Registry
end Lineage

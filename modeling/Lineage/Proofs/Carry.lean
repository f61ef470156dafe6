/-
Relations that resolution carries from one registry to a later one.

What is shown of linking one class is shown of everything above it, too.  `Carries`
lists what this asks of a relation between the registry before and the one after,
which may depend on the class; `Carries.resolveId` goes through the recursion.
-/
import Lineage.Proofs.Derivation

namespace Lineage
namespace Registry

/-- Each step of resolution of a class leads on along `R`, or fails as `F` says.
What is resolved on the way is above the class in question. -/
structure Carries (R : ClassId → Registry → Registry → Prop)
    (F : ClassId → Registry → Fault → Registry → Prop) : Prop where
  refl : ∀ id r, R id r r
  trans : ∀ {id p r s t}, R id r s → s.Extends t → t.Reaches id p → R p s t → R id r t
  fail : ∀ {id p r s f t}, R id r s → s.Extends t → t.Reaches id p → F p s f t → F id r f t
  /-- Errors that linking raises by itself. -/
  linking : ∀ {id r s e}, R id r s → e.isOfLinking = true → F id r (.raised e) s
  failed : ∀ {id r e}, r.standing? id = some (.failed e) → F id r (.raised e) r
  cycle : ∀ {id r e}, r.cycle? id = some e → F id r (.raised e) r
  lookup : ∀ id name r, (Registry.lookup name r).Meets (fun _ => R id r) (fun _ => R id r) True
  values : ∀ {id r} depth d, r.Indexed → r.Issued id →
    (forceAll (force depth) id d r).Meets (fun _ => R id r) (F id r) True
  linked : ∀ {id r s} links, R id (r.beginLinking id) s → s.standing? id = some .unresolved →
    R id r (s.endLinking id (.ok links))
  refused : ∀ {id r s e}, F id (r.beginLinking id) (.raised e) s →
    s.standing? id = some .unresolved → F id r (.raised e) (s.endLinking id (.error e))

namespace Carries

variable {R : ClassId → Registry → Registry → Prop}
  {F : ClassId → Registry → Fault → Registry → Prop} {r : Registry}

/-- Linking carries the relation if resolution of what the class refers to does. -/
theorem linkSteps (h : Carries R F) {depth : Nat} (id : ClassId) (d : ClassDecl) (hr : r.Indexed)
    (hresolve : ∀ p r, Indexed r → r.Issued p →
      (Registry.resolveId depth p r).Meets (fun _ => R p r) (F p r) True) :
    LinkSteps (fun s => Advances r s ∧ R id r s) (fun f s => Advances r s ∧ F id r f s)
      (fun s => Advances r s ∧ R id r s) BadReference (BadMembers id) True
      (Registry.resolveId depth) (force depth) id d := by
  have hsteps : LinkSteps (Advances r) (fun _ => Advances r) (Advances r) BadReference
      (BadMembers id) True (Registry.resolveId depth) (force depth) id d :=
    linkSteps_advances hr (resolveId_advances depth)
  refine ⟨fun s hs => hs.1.indexed hr, fun _ _ hs he => ⟨hs.1, h.linking hs.2 he⟩, ?_, ?_, ?_⟩
  · intro name s ⟨hs, hR⟩
    refine ((hsteps.lookup name s hs).and (h.lookup id name s)).imp ?_ ?_ And.left
    · exact fun q t ⟨⟨ht, hext, hq⟩, hnext⟩ => ⟨⟨ht, h.trans hR hext .refl hnext⟩, hext, hq⟩
    · exact fun f t ⟨⟨ht, hext, hq⟩, hnext⟩ => ⟨⟨ht, h.trans hR hext .refl hnext⟩, hext, hq⟩
  · intro q s ⟨hs, hR⟩ hq hawaits
    have hrefers : s.Reaches id q := .single (Awaits.refers hawaits)
    refine ((hsteps.resolve q s hs hq hawaits).and (hresolve q s (hs.indexed hr) hq)).imp ?_ ?_
      And.left
    · exact fun _ t ⟨⟨ht, hext, hl⟩, habove⟩ =>
        ⟨⟨ht, h.trans hR hext (hrefers.mono hext) habove⟩, hext, hl⟩
    · exact fun f t ⟨⟨ht, hext, hl⟩, habove⟩ =>
        ⟨⟨ht, h.fail hR hext (hrefers.mono hext) habove⟩, hext, hl⟩
  · intro s ⟨hs, hR⟩ hinh
    have hvalues := h.values depth d (hs.indexed hr) hinh.declares.issued
    refine ((hsteps.members s hs hinh).and hvalues).imp ?_ ?_ And.left
    · exact fun _ t ⟨⟨ht, hext, hv⟩, hown⟩ => ⟨⟨ht, h.trans hR hext .refl hown⟩, hext, hv⟩
    · exact fun f t ⟨⟨ht, hext, hv⟩, hown⟩ => ⟨⟨ht, h.fail hR hext .refl hown⟩, hext, hv⟩

theorem resolveId (h : Carries R F) (depth : Nat) :
    ∀ p r, Indexed r → r.Issued p →
      (Registry.resolveId depth p r).Meets (fun _ => R p r) (F p r) True := by
  induction depth with
  | zero => intro p r _ _; exact trivial
  | succ depth ih =>
    intro p r hr hp
    obtain ⟨st, hst⟩ := hp.standing?
    cases st with
    | resolved links =>
      rw [resolveId_of_resolved depth hst]
      exact h.refl p r
    | failed e =>
      rw [resolveId_of_failed depth hst]
      exact h.failed hst
    | unresolved =>
      cases hc : r.cycle? p with
      | some e =>
        rw [resolveId_of_cycle depth hst hc]
        exact h.cycle hc
      | none =>
        obtain ⟨d, hd⟩ := issued_iff_decl?.mp hp
        have hbegun : (r.beginLinking p).Indexed := hr
        have hlink := link_meets (h.linkSteps p d hbegun ih) ⟨.refl _, h.refl p _⟩ hd
        have hunres : ∀ s, Advances (r.beginLinking p) s → s.standing? p = some .unresolved :=
          fun s hs => hs.held p List.mem_cons_self hst
        refine resolveId_meets_of_fresh hst (cycle?_eq_none_iff.mp hc) hlink ?_ ?_ ?_
        · exact fun links s ⟨⟨hs, hR⟩, _⟩ => h.linked links hR (hunres s hs)
        · exact fun e s ⟨⟨hs, hF⟩, _⟩ => h.refused hF (hunres s hs)
        · intro i s ⟨_, _, hcause⟩
          obtain ⟨e, he⟩ := hcause.raised (fun _ _ ⟨e, he, _⟩ => ⟨e, he⟩)
            fun _ _ ⟨_, _, _, e, _, _, he⟩ => ⟨e, he⟩
          cases he

end Carries
end Registry
end Lineage

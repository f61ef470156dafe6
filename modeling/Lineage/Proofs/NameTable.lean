/-
Names, numbers and registered classes.

A key is bound to a number exactly if the class of that number is filed under the key, so
names and numbers stand for each other, and the numbers are those of registration
(`NameTable`).  A name that is taken is turned down, and nothing has happened then.
Declaring a class is registering and resolving it: if resolution fails, the class stays
registered, has failed with the error that is raised, and this never is the error of a
taken name (`Declaring`).  `Reachable.name_table` says so of every state, also in the middle
of an operation, as long as there are enough numbers.
-/
import Lineage.Proofs.Lifecycle
import Lineage.Proofs.StoredError

namespace Lineage
namespace Registry

variable {r s : Registry} {c : ClassId} {d : ClassDecl} {key : String}

/-! ## What is bound -/

/-- A key is bound to the number of a class that is filed under it, if there are as many
numbers as classes. -/
def Filed (r : Registry) : Prop :=
  r.size ≤ UInt32.size → ∀ key c, r.index.get? key = some c →
    ∃ d, r.decl? c = some d ∧ d.name.key = key

/-- Nothing is registered, and names stay. -/
theorem Filed.of_extends (hr : r.Filed) (hs : r.Extends s) (hindex : s.index = r.index)
    (hsize : s.size = r.size) : s.Filed := by
  intro hle key c hc
  rw [hindex] at hc
  obtain ⟨d, hd, hkey⟩ := hr (hsize ▸ hle) key c hc
  obtain ⟨d', hd', hset⟩ := hs.declared hd
  exact ⟨d', hd', by rw [hset.alike.name, hkey]⟩

theorem decl?_append_ofIndex (hsize : r.size < UInt32.size) :
    (r.append d).decl? (.ofIndex r.size) = some d := by
  have hlast : (r.append d).registrations = r.registrations ++ [{ decl := d }] := rfl
  rw [decl?, registration?, ClassId.index_ofIndex hsize, hlast, size,
    List.getElem?_concat_length]
  rfl

/-- A key that gets bound is that of the class that is registered. -/
theorem Filed.append (hr : r.Filed) (d : ClassDecl) : (r.append d).Filed := by
  intro hle key c hc
  rw [size_append] at hle
  have hput : (r.append d).index.get? key =
      if key = d.name.key then some (.ofIndex r.size) else r.index.get? key :=
    Catalog.get?_put _ _ _ _
  rw [hput] at hc
  split at hc
  · rename_i hkey
    cases hc
    exact ⟨d, decl?_append_ofIndex hle, hkey.symm⟩
  · obtain ⟨d', hd', hkey⟩ := hr (Nat.le_of_succ_le hle) key c hc
    exact ⟨d', by rw [decl?_append (.of_decl? hd')]; exact hd', hkey⟩

theorem Change.filed (h : Change r s) (hr : r.Filed) : s.Filed := by
  rcases h.registers with ⟨hindex, hsize⟩ | ⟨d, hfree, rfl⟩
  · exact hr.of_extends h.grows hindex hsize
  · exact hr.append d

theorem Reachable.filed (hr : r.Reachable) : r.Filed := by
  obtain ⟨config, hsteps⟩ := hr
  induction hsteps with
  | refl =>
    intro _ key c hc
    cases hc
  | tail _ hstep ih => exact hstep.filed ih

theorem Reachable.bound_iff (hr : r.Reachable) (hsize : r.size ≤ UInt32.size) :
    r.index.get? key = some c ↔ ∃ d, r.decl? c = some d ∧ d.name.key = key := by
  constructor
  · exact hr.filed hsize key c
  · rintro ⟨d, hd, rfl⟩
    exact hr.numbered hsize c d hd

/-! ## Registering a class -/

theorem register_of_taken (h : r.contains d.name = true) (depth : Nat) :
    perform depth (.register d) r = .failure (.raised (.duplicateClass d.name.text)) r := by
  rw [perform, Eval.bind_apply, register, if_pos h]

theorem register_of_free (h : r.contains d.name = false) (depth : Nat) :
    perform depth (.register d) r = .value (.id (.ofIndex r.size)) (r.append d) := by
  rw [perform, Eval.bind_apply, register, if_neg (by rw [h]; exact Bool.false_ne_true)]
  rfl

/-- What the registry says of names and numbers. -/
structure NameTable (r : Registry) : Prop where
  bound_iff : ∀ key c, r.index.get? key = some c ↔ ∃ d, r.decl? c = some d ∧ d.name.key = key
  distinct : ∀ {c c' d d'}, r.decl? c = some d → r.decl? c' = some d' →
    d.name.key = d'.name.key → c = c'
  /-- Numbers are given out one after the other. -/
  consecutive : ∀ n, n < r.size ↔ ∃ c d, c.index = n ∧ r.decl? c = some d
  /-- A taken name is turned down, and nothing has changed. -/
  taken : ∀ d depth, r.contains d.name = true →
    perform depth (.register d) r = .failure (.raised (.duplicateClass d.name.text)) r
  /-- A free name is bound to the next number, and nothing else has changed. -/
  free : ∀ d depth, r.contains d.name = false → ∃ s,
    perform depth (.register d) r = .value (.id (.ofIndex r.size)) s ∧
      (ClassId.ofIndex r.size).index = r.size ∧ s.size = r.size + 1 ∧
      s.decl? (.ofIndex r.size) = some d ∧ s.idOf? d.name = some (.ofIndex r.size) ∧
      ∀ c, r.Issued c → s.registration? c = r.registration? c

theorem Reachable.nameTable (hr : r.Reachable) (hsize : r.size < UInt32.size) : r.NameTable where
  bound_iff key c := hr.bound_iff (Nat.le_of_lt hsize)
  distinct {c c' d d'} hd hd' hkey := by
    have hbound := (hr.bound_iff (Nat.le_of_lt hsize)).mpr ⟨d, hd, hkey⟩
    rw [(hr.bound_iff (Nat.le_of_lt hsize)).mpr ⟨d', hd', rfl⟩] at hbound
    exact (Option.some.inj hbound).symm
  consecutive n := by
    constructor
    · intro hn
      have hindex : (ClassId.ofIndex n).index = n := ClassId.index_ofIndex (Nat.lt_trans hn hsize)
      obtain ⟨d, hd⟩ := issued_iff_decl?.mp (show r.Issued (.ofIndex n) by rwa [Issued, hindex])
      exact ⟨_, d, hindex, hd⟩
    · rintro ⟨c, d, rfl, hd⟩
      exact Issued.of_decl? hd
  taken d depth h := register_of_taken h depth
  free d depth h := by
    refine ⟨_, register_of_free h depth, ClassId.index_ofIndex hsize, size_append d r,
      decl?_append_ofIndex hsize, ?_, fun c hc => registration?_append hc⟩
    rw [idOf?_append, if_pos rfl]

/-! ## Declaring a class -/

/-- How declaring a class can end. -/
structure Declaring (r : Registry) (d : ClassDecl) (depth : Nat) : Prop where
  duplicate_iff : (∃ name s, perform depth (.declare d) r =
    .failure (.raised (.duplicateClass name)) s) ↔ r.contains d.name = true
  /-- A taken name is turned down, and nothing has changed. -/
  taken : r.contains d.name = true →
    perform depth (.declare d) r = .failure (.raised (.duplicateClass d.name.text)) r
  /-- A class that cannot be resolved stays registered, and has failed with the error that
  is raised. -/
  failed : ∀ f s, r.contains d.name = false → perform depth (.declare d) r = .failure f s →
    ∃ e, f = .raised e ∧ s.resolutionError (.ofIndex r.size) = .ok (some e) ∧
      s.idOf? d.name = some (.ofIndex r.size) ∧
      ∃ d', s.decl? (.ofIndex r.size) = some d' ∧ d.Settles d'
  resolved : ∀ a s, perform depth (.declare d) r = .value a s →
    r.contains d.name = false ∧ a = .id (.ofIndex r.size) ∧
      s.isResolved (.ofIndex r.size) = .ok true ∧ s.idOf? d.name = some (.ofIndex r.size) ∧
      ∃ d', s.decl? (.ofIndex r.size) = some d' ∧ d.Settles d'

theorem isResolved_of_resolved {links : Links} (h : r.Resolved c links) :
    r.isResolved c = .ok true := by
  obtain ⟨found, hf, hst⟩ := Option.map_eq_some_iff.mp h
  rw [isResolved, registration, hf]
  simp [Except.map, Registration.isResolved, hst]

theorem perform_declare (depth : Nat) (d : ClassDecl) :
    perform depth (.declare d) = declare depth d >>= fun c => pure (.id c) :=
  rfl

theorem declare_of_taken (h : r.contains d.name = true) (depth : Nat) :
    perform depth (.declare d) r = .failure (.raised (.duplicateClass d.name.text)) r := by
  rw [perform_declare, Eval.bind_apply, declare, Eval.bind_apply, register, if_pos h]

theorem declare_of_free (h : r.contains d.name = false) (depth : Nat) :
    perform depth (.declare d) r = (do
      resolveId depth (.ofIndex r.size)
      pure (Answer.id (.ofIndex r.size))) (r.append d) := by
  rw [perform_declare, Eval.bind_apply, declare, Eval.bind_apply, register,
    if_neg (by rw [h]; exact Bool.false_ne_true)]
  simp only [Eval.bind_apply]
  cases resolveId depth (.ofIndex r.size) (r.append d) <;> rfl

/-- What has been registered stays so while it is resolved. -/
theorem Extends.registered (hs : (r.append d).Extends s) (hsize : r.size < UInt32.size) :
    s.idOf? d.name = some (.ofIndex r.size) ∧
      ∃ d', s.decl? (.ofIndex r.size) = some d' ∧ d.Settles d' :=
  ⟨hs.bound (by rw [idOf?_append, if_pos rfl]), hs.declared (decl?_append_ofIndex hsize)⟩

/-- Nothing being linked, a class that is declared is resolved or has failed with the error
that is raised. -/
theorem declare_meets (hr : r.Indexed) (hidle : r.resolving = [])
    (hfree : r.contains d.name = false) (hsize : r.size < UInt32.size) (depth : Nat) :
    (perform depth (.declare d) r).Meets
      (fun a s => (r.append d).Extends s ∧ a = .id (.ofIndex r.size) ∧
        ∃ links, s.Resolved (.ofIndex r.size) links)
      (fun f s => (r.append d).Extends s ∧
        ∃ e, f = .raised e ∧ s.standing? (.ofIndex r.size) = some (.failed e)) True := by
  have hindexed : (r.append d).Indexed := Load.indexed (.registered hfree) hr
  have hissued : (r.append d).Issued (.ofIndex r.size) :=
    .of_decl? (decl?_append_ofIndex hsize)
  rw [declare_of_free hfree]
  refine Eval.meets_bind ((resolveId_advances depth _ _ hindexed hissued).imp
    (fun _ _ h => h) ?_ id) ?_
  · rintro f s ⟨hadv, e, rfl, hfailed | hcycle⟩
    · exact ⟨hadv.grows, e, rfl, hfailed⟩
    · have hidle' : s.resolving = [] := hadv.resolving.trans hidle
      rw [cycle?_eq_none_iff.mpr (by rw [hidle']; exact List.not_mem_nil)] at hcycle
      cases hcycle
  · exact fun _ s ⟨hadv, hresolved⟩ => ⟨hadv.grows, rfl, hresolved⟩

theorem Run.declaring {config : Config} {ops : List Operation} (h : Run (new config) ops r)
    (hops : ∀ op ∈ ops, op.Supplies ClassDecl.Plain) (hsize : r.size < UInt32.size)
    (hd : d.Plain) (depth : Nat) : r.Declaring d depth where
  duplicate_iff := by
    refine ⟨fun ⟨name, s, hs⟩ => ?_, fun ht => ⟨_, r, declare_of_taken ht depth⟩⟩
    by_contra hfree
    have hmeets := declare_meets h.idle.1 h.idle.2.1 (by simpa using hfree) hsize depth
    have hop : (Operation.declare d).Supplies ClassDecl.Plain :=
      ⟨fun _ hd' => by cases hd'; exact hd, nofun⟩
    have hkept : Maintains Proper (fun _ => True) (perform depth (.declare d)) :=
      keptSince_proper.perform hop fun id => (resolveId_proper depth id).forget
    have hproper := hkept r (h.proper hops)
    rw [hs] at hmeets hproper
    obtain ⟨-, e, he, hfailed⟩ := hmeets
    cases he
    -- The class would have failed with an error that no class fails with.
    exact Bool.false_ne_true (hproper.1.failed _ _ hfailed)
  taken ht := declare_of_taken ht depth
  failed f s hfree hf := by
    have hmeets := declare_meets h.idle.1 h.idle.2.1 hfree hsize depth
    rw [hf] at hmeets
    obtain ⟨hext, e, he, hfailed⟩ := hmeets
    exact ⟨e, he, resolutionError_eq_ok_iff.mpr hfailed, hext.registered hsize⟩
  resolved a s ha := by
    cases hfree : r.contains d.name with
    | true =>
      rw [declare_of_taken hfree] at ha
      cases ha
    | false =>
      have hmeets := declare_meets h.idle.1 h.idle.2.1 hfree hsize depth
      rw [ha] at hmeets
      obtain ⟨hext, rfl, links, hlinks⟩ := hmeets
      exact ⟨rfl, rfl, isResolved_of_resolved hlinks, hext.registered hsize⟩

/-! ## All states -/

/-- In every state, names, numbers and classes stand for each other, and registration is
refused for a taken name only; between operations on sources that are expressions, the same
goes for declaring a class, and any other failure is the one that the class is left with. -/
theorem Reachable.name_table (hr : r.Reachable) (hsize : r.size < UInt32.size) :
    r.NameTable ∧ ∀ config ops, Run (new config) ops r →
      (∀ op ∈ ops, op.Supplies ClassDecl.Plain) → ∀ d, d.Plain → ∀ depth, r.Declaring d depth :=
  ⟨hr.nameTable hsize, fun _ _ hrun hops _ hd depth => hrun.declaring hops hsize hd depth⟩

/-- The hook answers with a class of another name, which takes the next number.  Afterwards
that name is taken, and a class that cannot be resolved gets the number after it. -/
theorem Reachable.name_table_wrong_name :
    let hook : Autoloader := { reply := fun _ _ => some { name := ⟨"Extra"⟩ } }
    let ops : List Operation := [.setAutoloader hook,
      .declare { name := ⟨"A"⟩, parent := some ⟨"Ghost"⟩ }]
    let orphan : ClassDecl := { name := ⟨"B"⟩, interfaces := [⟨"Phantom"⟩] }
    ∃ r, Run (new {}) ops r ∧ r.Reachable ∧ r.size < UInt32.size ∧
      (∀ op ∈ ops, op.Supplies ClassDecl.Plain) ∧ orphan.Plain ∧
      (∃ d, r.decl? ⟨1⟩ = some d ∧ d.name.key = "extra") ∧
      perform 0 (.declare { name := ⟨"EXTRA"⟩ }) r =
        .failure (.raised (.duplicateClass "EXTRA")) r ∧
      ∃ s, perform 5 (.declare orphan) r = .failure (.raised (.classNotFound "Phantom")) s ∧
        s.resolutionError ⟨2⟩ = .ok (some (.classNotFound "Phantom")) := by
  intro hook ops orphan
  have hnames : (performAll 5 ops (new {})).map (fun r =>
      (r.size, r.index.get? "extra", r.contains ⟨"EXTRA"⟩, r.contains ⟨"B"⟩)) =
      some (2, some ⟨1⟩, true, false) := by decide +kernel
  have hanswers : (performAll 5 ops (new {})).map (fun r => (declare 5 orphan r).answer?) =
      some (some (.error (.raised (.classNotFound "Phantom")))) := by decide +kernel
  obtain ⟨r, hr, hnames⟩ := Option.map_eq_some_iff.mp hnames
  rw [hr] at hanswers
  obtain ⟨s, hs⟩ := Outcome.answer?_eq_error_iff.mp (Option.some.inj hanswers)
  have hs : perform 5 (.declare orphan) r = .failure (.raised (.classNotFound "Phantom")) s := by
    rw [perform_declare, Eval.bind_apply, hs]
  simp only [Prod.mk.injEq] at hnames
  obtain ⟨htwo, hbound, htaken, hfree⟩ := hnames
  have hrun : Run (new {}) ops r := .of_performAll hr
  have hsize : r.size < UInt32.size := by rw [htwo]; decide
  have hplain : ∀ d : ClassDecl, d ∈ [orphan, { name := ⟨"EXTRA"⟩ }, { name := ⟨"Extra"⟩ },
      { name := ⟨"A"⟩, parent := some ⟨"Ghost"⟩ }] → d.Plain := by decide
  have hops : ∀ op ∈ ops, op.Supplies ClassDecl.Plain := by
    intro op hop
    rcases List.mem_cons.mp hop with rfl | hop
    · refine ⟨fun d hd => (by cases hd), fun loader hl asked name d hd => ?_⟩
      cases hl
      cases hd
      exact hplain _ (by simp)
    · rw [List.mem_singleton.mp hop]
      exact ⟨fun d hd => by cases hd; exact hplain _ (by simp), fun loader hl => by cases hl⟩
  obtain ⟨htable, hdeclaring⟩ := Reachable.name_table hrun.reachable hsize
  have horphan := hplain orphan (by simp)
  obtain ⟨e, he, hstored, -⟩ := (hdeclaring {} ops hrun hops orphan horphan 5).failed _ s hfree hs
  cases he
  rw [htwo] at hstored
  exact ⟨r, hrun, hrun.reachable, hsize, hops, horphan, (htable.bound_iff "extra" ⟨1⟩).mp hbound,
    (hdeclaring {} ops hrun hops _ (hplain _ (by simp)) 0).taken htaken, s, hs, hstored⟩

end Registry
end Lineage

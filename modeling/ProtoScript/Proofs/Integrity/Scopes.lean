import ProtoScript.Proofs.Integrity.Intact
/-!
# Scopes of intact stores

Each operation on scopes leads from an intact store to an intact one, as long as it declares no name
`this`, gives no settled binding that is to be kept a value again, and makes nothing else of a
parameter that is shared and watched.
-/

namespace ProtoScript

/-- The second scope is the first one after an operation: its `this` and the settled bindings that
are to be kept are as they were. -/
structure Scope.Becomes (n : Nat) (kept : String → Prop) (a b : Scope) : Prop where
  parent : b.parent = a.parent
  receiver : b.bindings.find? "this" = a.bindings.find? "this"
  settled : ∀ name c, kept name → a.bindings.find? name = some c → c.Settled →
    b.bindings.find? name = some c
  within : a.Within n → b.Within n

namespace Scope

variable {n : Nat} {kept : String → Prop} {a b c : Scope} {name : String} {value : Value}

theorem Becomes.refl (a : Scope) : a.Becomes n kept a := ⟨rfl, rfl, fun _ _ _ h _ => h, id⟩

theorem Becomes.trans (h : a.Becomes n kept b) (h' : b.Becomes n kept c) : a.Becomes n kept c where
  parent := h'.parent.trans h.parent
  receiver := h'.receiver.trans h.receiver
  settled name binding hname hbinding hsettled :=
    h'.settled name binding hname (h.settled name binding hname hbinding hsettled) hsettled
  within ha := h'.within (h.within ha)

/-- Whether a name may be given a new binding: what it is bound to is not to be kept. -/
def Free (kept : String → Prop) (a : Scope) (name : String) : Prop :=
  kept name → ∀ b, a.bindings.find? name = some b → ¬ b.Settled

theorem becomes_insert {binding : Binding} (hname : name ≠ "this")
    (hvalue : binding.value.Within n) (hfree : Free kept a name) :
    a.Becomes n kept { a with bindings := a.bindings.insert name binding } where
  parent := rfl
  receiver := by
    rw [NameMap.find?_insert, if_neg (Ne.symm hname)]
  settled other before hother hbefore hsettled := by
    have hne : other ≠ name := by
      rintro rfl
      exact hfree hother before hbefore hsettled
    rw [NameMap.find?_insert, if_neg hne]
    exact hbefore
  within ha := NameMap.All.insert ha name hvalue

theorem becomes_insert_same {binding : Binding} (h : a.bindings.find? name = some binding) :
    a.Becomes n kept { a with bindings := a.bindings.insert name binding } := by
  have hsame : ∀ other, (a.bindings.insert name binding).find? other = a.bindings.find? other := by
    intro other
    rw [NameMap.find?_insert]
    split
    · rename_i heq
      rw [heq, h]
    · rfl
  refine ⟨rfl, hsame _, fun other before _ hbefore _ => (hsame other).trans hbefore, fun ha => ?_⟩
  exact NameMap.All.insert ha name (NameMap.All.find? ha h)

theorem becomes_declare (hname : name ≠ "this") {kind : BindingKind}
    (hfree : kind = .variable ∨ ¬ kept name) : a.Becomes n kept (a.declare name kind) := by
  unfold declare
  split
  · exact .refl a
  · rename_i hnew
    refine becomes_insert hname trivial fun hkept binding hbinding _ => ?_
    rcases hfree with rfl | hfree
    · refine hnew ⟨rfl, ?_⟩
      unfold NameMap.contains
      rw [hbinding]
      rfl
    · exact hfree hkept

theorem becomes_declareAll {names : List String} (hnames : ∀ name ∈ names, name ≠ "this")
    {kind : BindingKind} (hfree : kind = .variable ∨ ∀ name ∈ names, ¬ kept name) :
    a.Becomes n kept (names.foldl (fun scope name => scope.declare name kind) a) := by
  induction names generalizing a with
  | nil => exact .refl a
  | cons name names ih =>
    obtain ⟨hname, hrest⟩ := List.forall_mem_cons.mp hnames
    refine (becomes_declare hname ?_).trans (ih hrest ?_)
    · exact hfree.imp_right fun h => h name (List.mem_cons_self ..)
    · exact hfree.imp_right fun h other hother => h other (List.mem_cons_of_mem _ hother)

/-- Copies of bindings of another scope take the place of what the scope binds the names to. -/
theorem becomes_copied {origin : Scope} (horigin : origin.Within n) {names : List String}
    (hnames : ∀ name ∈ names, name ≠ "this") (hfree : ∀ name ∈ names, ¬ kept name) :
    a.Becomes n kept { a with
      bindings := names.foldl (fun bindings name =>
        match origin.bindings.find? name with
        | some binding => bindings.insert name binding
        | none => bindings) a.bindings } := by
  induction names generalizing a with
  | nil => exact .refl a
  | cons name names ih =>
    obtain ⟨hname, hnames⟩ := List.forall_mem_cons.mp hnames
    obtain ⟨hfree, hrest⟩ := List.forall_mem_cons.mp hfree
    rw [List.foldl_cons]
    split
    · rename_i binding hbinding
      have hwithin : binding.value.Within n := NameMap.All.find? horigin hbinding
      exact (becomes_insert hname hwithin fun hkept => absurd hkept hfree).trans (ih hnames hrest)
    · exact ih hnames hrest

theorem becomes_bind (hname : name ≠ "this") (hvalue : value.Within n)
    (hfree : Free kept a name) : a.Becomes n kept (a.bind name value) :=
  becomes_insert hname hvalue hfree

end Scope

namespace Store

variable {kept : Watch} {s s' : Store} {id : ScopeId}

structure Free (kept : Watch) (s : Store) (id : ScopeId) (name : String) : Prop where
  settled : ¬ kept.settled id name
  joined : ¬ (kept.joined id ∧ s.Shares id name)

theorem Free.later {name : String} (h : s.Free kept id name) (hlater : s.Evolves kept s')
    (hold : kept.old id) : s'.Free kept id name :=
  ⟨h.settled, fun hboth => h.joined ⟨hboth.1, hlater.comesBy.shares hold hboth.2⟩⟩

/-- A scope inside the global one that binds nothing but perhaps `this`, and in which nothing is
shared. -/
structure IsBare (s : Store) (id : ScopeId) : Prop where
  inside : id ≠ .global
  there : id.index < s.scopes.size
  unbound : ∀ name, name ≠ "this" → s.binding? id name = none
  unshared : ∀ name, ¬ s.Shares id name
  isOpen : s.Open id

theorem IsBare.exists_scope? (h : s.IsBare id) :
    ∃ a, s.scope? id = some a ∧ ∀ name, name ≠ "this" → a.bindings.find? name = none := by
  obtain ⟨a, ha⟩ := scope?_eq_some_iff.mpr h.there
  refine ⟨a, ha, fun name hname => ?_⟩
  have hbinding := h.unbound name hname
  unfold binding? at hbinding
  rwa [ha] at hbinding

/-- A scope may be changed so that what it refers to is known and its `this` is a receiver. -/
theorem Intact.of_modifyScope (hs : s.Intact) {f : Scope → Scope}
    (hnamed : (s.modifyScope id f).Named) (hparent : ∀ a, (f a).parent = a.parent)
    (hthis : ∀ a, s.scope? id = some a → ∀ b, (f a).bindings.find? "this" = some b → b.IsReceiver)
    (hwithin : ∀ a, s.scope? id = some a → (f a).Within s.objects.size) :
    (s.modifyScope id f).Intact where
  intrinsics := hs.intrinsics
  records := hs.records
  bindings other a ha := by
    rw [scope?_modifyScope] at ha
    obtain ⟨before, hbefore, rfl | ⟨rfl, rfl⟩⟩ := exists_of_ite_map ha
    · exact hs.bindings other _ hbefore
    · exact hwithin before hbefore
  founded := hs.founded.of_objects rfl
  tidy := hs.tidy.of_objects rfl
  shared := hs.shared.of_objects rfl
  shares scope name hshared := by
    rw [size_modifyScope]
    exact hs.shares scope name (hshared.of_objects rfl)
  nested other a ha hother := by
    rw [scope?_modifyScope] at ha
    obtain ⟨before, hbefore, rfl | ⟨-, rfl⟩⟩ := exists_of_ite_map ha
    · exact hs.nested other _ hbefore hother
    · rw [hparent]
      exact hs.nested other before hbefore hother
  sound := hs.sound.modifyScope id f
  named := hnamed
  receivers other b hb := by
    rw [binding?_modifyScope] at hb
    split at hb
    · rename_i heq
      subst heq
      obtain ⟨a, ha, hb⟩ := Option.bind_eq_some_iff.mp hb
      exact hthis a ha b hb
    · exact hs.receivers other b hb

theorem Intact.modifyScope (hs : s.Intact) {f : Scope → Scope}
    (hnamed : (s.modifyScope id f).Named) (hparent : ∀ a, (f a).parent = a.parent)
    (h : ∀ a, s.scope? id = some a → a.Becomes s.objects.size (kept.settled id) (f a)) :
    s.Preserves kept.settled (s.modifyScope id f) ∧ (s.modifyScope id f).Intact := by
  refine ⟨⟨Nat.le_refl _, fun _ h => h, fun other a ha => ?_, fun other _ => ?_, ?_⟩, ?_⟩
  · rw [scope?_modifyScope, ha]
    split
    · exact ⟨f a, rfl, hparent a⟩
    · exact ⟨a, rfl, rfl⟩
  · rw [binding?_modifyScope]
    split
    · rename_i heq
      subst heq
      unfold binding?
      cases ha : s.scope? other with
      | none => rfl
      | some a => exact (h a ha).receiver
    · rfl
  · intro other name b hkept hb hsettled
    rw [binding?_modifyScope]
    split
    · rename_i heq
      subst heq
      obtain ⟨a, ha, hb⟩ := Option.bind_eq_some_iff.mp hb
      rw [ha]
      exact (h a ha).settled name b hkept hb hsettled
    · exact hb
  · refine hs.of_modifyScope hnamed hparent (fun a ha b hb => ?_) fun a ha => ?_
    · rw [(h a ha).receiver] at hb
      refine hs.receivers id b ?_
      unfold binding?
      rw [ha]
      exact hb
    · exact (h a ha).within (hs.bindings id a ha)

/-- A change to a scope that is new leaves the scopes there were as they are. -/
theorem Preserves.modifyScope_new {kept : ScopeId → String → Prop} (h : s.Preserves kept s')
    (hnew : s.scopes.size ≤ id.index) (f : Scope → Scope) :
    s.Preserves kept (s'.modifyScope id f) := by
  have hold : ∀ other : ScopeId, other.index < s.scopes.size → other ≠ id := by
    rintro other hother rfl
    omega
  refine ⟨h.objects, h.ordinary, fun other a ha => ?_, fun other hother => ?_,
    fun other name b hkept hb hb' => ?_⟩
  · rw [scope?_modifyScope, if_neg (hold other (scope?_eq_some_iff.mp ⟨a, ha⟩))]
    exact h.scopes other a ha
  · rw [binding?_modifyScope, if_neg (hold other hother)]
    exact h.receivers other hother
  · rw [binding?_modifyScope, if_neg (hold other (lt_of_binding? hb))]
    exact h.settled other name b hkept hb hb'

theorem Intact.setStrict (hs : s.Intact) (id : ScopeId) (strict : Bool) :
    s.Leads kept (s.modifyScope id fun a => { a with strict }) :=
  have hop : s.Heeds kept (.setStrict id strict) := trivial
  .of_operation (.setStrict id strict) hop rfl
    (hs.modifyScope (hs.named.perform hop) (fun _ => rfl) fun _ _ =>
      ⟨rfl, rfl, fun _ _ _ h _ => h, fun h => h⟩)

/-- A scope may change its kind if it goes on holding variables or passing them on. -/
theorem Intact.setKind (hs : s.Intact) (id : ScopeId) {kind : ScopeKind}
    (hkind : ∀ a, s.scope? id = some a → kind.holdsVars = a.kind.holdsVars) :
    s.Leads kept (s.modifyScope id fun a => { a with kind }) :=
  have hop : s.Heeds kept (.setKind id kind) := hkind
  .of_operation (.setKind id kind) hop rfl
    (hs.modifyScope (hs.named.perform hop) (fun _ => rfl) fun _ _ =>
      ⟨rfl, rfl, fun _ _ _ h _ => h, fun h => h⟩)

theorem Intact.newScope (hs : s.Intact) {parent : ScopeId}
    (hparent : parent.index < s.scopes.size) (kind : ScopeKind) :
    s.Leads kept (s.newScope (some parent) kind).2 := by
  have hlt : ∀ {id a}, s.scope? id = some a → id.index < s.scopes.size :=
    fun h => scope?_eq_some_iff.mp ⟨_, h⟩
  have hop : s.Heeds kept (.newScope parent kind) := trivial
  refine .of_operation (.newScope parent kind) hop rfl
    ⟨⟨Nat.le_refl _, fun _ h => h, fun id a ha => ⟨a, ?_, rfl⟩, fun id hid => ?_, ?_⟩, ?_⟩
  · rw [scope?_newScope, if_neg (Nat.ne_of_lt (hlt ha))]
    exact ha
  · exact s.binding?_newScope _ kind id _
  · intro id name b _ hb _
    rw [binding?_newScope]
    exact hb
  refine ⟨hs.intrinsics, hs.records, fun id a ha => ?_, hs.founded.of_objects rfl,
    hs.tidy.of_objects rfl, hs.shared.of_objects rfl, fun id name hshared => ?_,
    fun id a ha hid => ?_, ?_,
    hs.named.perform hop, fun id b hb => ?_⟩
  · rw [scope?_newScope] at ha
    split at ha
    · cases ha
      exact NameMap.All.empty
    · exact hs.bindings id a ha
  · obtain ⟨hinside, hthere⟩ := hs.shares id name (hshared.of_objects rfl)
    exact ⟨hinside, Nat.lt_of_lt_of_le hthere (s.extends_newScope (some parent) kind).size_le⟩
  · rw [scope?_newScope] at ha
    split at ha
    · rename_i hnew
      cases ha
      exact ⟨parent, rfl, by omega⟩
    · exact hs.nested id a ha hid
  · exact hs.sound.of_objects (s.extends_newScope (some parent) kind).size_le rfl
  · unfold binding? at hb
    rw [scope?_newScope] at hb
    split at hb
    · cases hb
    · exact hs.receivers id b hb

theorem Intact.selfScope (hs : s.Intact) {parent : ScopeId}
    (hparent : parent.index < s.scopes.size) {name : String} (hname : name ≠ "this")
    (guarded : Bool) {value : Value} (hvalue : value.Within s.objects.size) :
    s.Leads kept (s.selfScope parent name guarded value) := by
  have hnew : s.Leads kept (s.newScope (some parent) .block).2 := hs.newScope hparent .block
  have hop : s.Heeds kept (.selfScope parent name guarded value) := trivial
  have hnamed : (s.selfScope parent name guarded value).Named := hs.named.perform hop
  have heq : s.selfScope parent name guarded value =
      (s.newScope (some parent) .block).2.modifyScope ⟨s.scopes.size⟩ fun a =>
        (a.declare name (.selfName guarded)).bind name value := bind_declare ..
  refine .of_operation (.selfScope parent name guarded value) hop rfl ?_
  rw [heq] at hnamed ⊢
  refine ⟨hnew.evolves.toPreserves.modifyScope_new (Nat.le_refl _) _,
    hnew.intact.of_modifyScope hnamed (fun a => ?_) (fun a ha b hb => ?_) fun a ha => ?_⟩
  · exact (a.extends_declare name _).parent
  · rw [Scope.find?_bind_of_ne _ (Ne.symm hname), Scope.find?_declare_of_ne _ (Ne.symm hname)] at hb
    refine hnew.intact.receivers ⟨s.scopes.size⟩ b ?_
    unfold binding?
    rw [ha]
    exact hb
  · have hdeclared : (a.declare name (.selfName guarded)).Within s.objects.size := by
      unfold Scope.declare
      rw [if_neg (fun h => nomatch h.1)]
      exact NameMap.All.insert (hnew.intact.bindings _ a ha) _ trivial
    exact NameMap.All.insert hdeclared _ hvalue

theorem Intact.isBare_newScope (hs : s.Intact) (parent : ScopeId) (kind : ScopeKind) :
    (s.newScope (some parent) kind).2.IsBare (s.newScope (some parent) kind).1 where
  inside hglobal := Nat.lt_irrefl _ (Nat.lt_of_lt_of_eq hs.sound.global
    (congrArg ScopeId.index hglobal))
  there := s.index_newScope_lt (some parent) kind
  unbound name _ := s.binding?_newScope_self (some parent) kind name
  unshared name hshared := Nat.lt_irrefl _ (hs.shares _ name (hshared.of_objects rfl)).2
  isOpen name := selfName?_of_binding?_eq_none (s.binding?_newScope_self (some parent) kind name)

theorem Intact.openScope (hs : s.Intact) {parent : ScopeId}
    (hparent : parent.index < s.scopes.size) (kind : ScopeKind) (strict : Bool) :
    s.Leads kept ((s.newScope (some parent) kind).2.modifyScope (s.newScope (some parent) kind).1
      fun a => { a with strict }) := by
  have hnew : s.Leads kept (s.newScope (some parent) kind).2 := hs.newScope hparent kind
  exact hnew.trans (hnew.intact.setStrict _ strict)

theorem IsBare.setStrict (h : s.IsBare id) (strict : Bool) :
    (s.modifyScope id fun a => { a with strict }).IsBare id where
  inside := h.inside
  there := Nat.lt_of_lt_of_eq h.there (size_modifyScope ..).symm
  unbound name hname := by
    obtain ⟨a, ha, hfree⟩ := h.exists_scope?
    rw [binding?_modifyScope, if_pos rfl, ha]
    exact hfree name hname
  unshared name hshared := h.unshared name (hshared.of_objects rfl)
  isOpen := by
    have hretains : s.Retains (s.modifyScope id fun a => { a with strict }) :=
      .modifyScope fun _ _ => .of_bindings rfl rfl rfl
    exact hretains.isOpen h.there h.isOpen

theorem Intact.declareAll (hs : s.Intact) {id : ScopeId} (hopen : s.Open id) {names : List String}
    (hnames : ∀ name ∈ names, name ≠ "this") {kind : BindingKind} (hkind : kind.isSelfName = false)
    (hfree : kind = .variable ∨ ∀ name ∈ names, s.Free kept id name) :
    s.Leads kept (s.declareAll id names kind) := by
  have hop : s.Heeds kept (.declare id names kind) :=
    ⟨hopen, hkind, hfree.imp_right fun h name hname => (h name hname).joined⟩
  exact .of_operation (.declare id names kind) hop rfl (hs.modifyScope (hs.named.perform hop)
    (fun a => (a.extends_declareAll names kind).parent) fun _ _ => Scope.becomes_declareAll hnames
      (hfree.imp_right fun h name hname => (h name hname).settled))

theorem Intact.declare (hs : s.Intact) {id : ScopeId} (hopen : s.Open id) {name : String}
    (hname : name ≠ "this") {kind : BindingKind} (hkind : kind.isSelfName = false)
    (hfree : kind = .variable ∨ s.Free kept id name) :
    s.Leads kept (s.declare id name kind) :=
  hs.declareAll hopen (List.forall_mem_singleton.mpr hname) hkind
    (hfree.imp_right List.forall_mem_singleton.mpr)

theorem Intact.bind (hs : s.Intact) {id : ScopeId} (hopen : s.Open id) {name : String}
    (hname : name ≠ "this") {value : Value} (hvalue : value.Within s.objects.size)
    (hfree : kept.settled id name → ∀ b, s.binding? id name = some b → ¬ b.Settled) :
    s.Leads kept (s.bind id name value) := by
  have hop : s.Heeds kept (.bind id name value) := hopen
  refine .of_operation (.bind id name value) hop rfl
    (hs.modifyScope (hs.named.perform hop) (fun _ => rfl) fun a ha =>
      Scope.becomes_bind hname hvalue ?_)
  intro hkept b hb
  refine hfree hkept b ?_
  unfold binding?
  rw [ha]
  exact hb

theorem Intact.declareBound (hs : s.Intact) {id : ScopeId} (hopen : s.Open id) {name : String}
    (hname : name ≠ "this") {value : Value} (hvalue : value.Within s.objects.size)
    {kind : BindingKind} (hkind : kind.isSelfName = false) (hkept : ¬ kept.settled id name)
    (hjoined : kind = .variable ∨ ¬ (kept.joined id ∧ s.Shares id name)) :
    s.Leads kept ((s.declare id name kind).bind id name value) := by
  have hdeclared : s.Leads kept (s.declare id name kind) :=
    hs.declare hopen hname hkind (hjoined.imp_right fun h => ⟨hkept, h⟩)
  have hdeclaredOpen : (s.declare id name kind).Open id := fun other =>
    (hdeclared.evolves.retains.selfName?_of_size (size_modifyScope ..) id other).trans (hopen other)
  exact hdeclared.trans
    (hdeclared.intact.bind hdeclaredOpen hname hvalue fun h => absurd h hkept)

theorem Intact.assign (hs : s.Intact) (id : ScopeId) (name : String) {value : Value}
    (hvalue : value.Within s.objects.size) : s.Leads kept (s.assign id name value).2 := by
  have hop : s.Heeds kept (.assign id name value) := trivial
  refine .of_operation (.assign id name value) hop rfl ?_
  have hnamed : (s.assign id name value).2.Named := hs.named.perform hop
  unfold Store.assign at hnamed ⊢
  split
  · exact ⟨.refl s, hs⟩
  · rename_i holder b hresolve
    have hb := binding?_of_resolve? hresolve
    split
    · exact ⟨.refl s, hs⟩
    · rename_i written hwritten
      simp only [hresolve, hwritten] at hnamed
      refine hs.modifyScope hnamed (fun _ => rfl) fun a ha => ?_
      unfold binding? at hb
      rw [ha, Option.bind_some] at hb
      by_cases hsettled : b.Settled
      · rw [hsettled.write_eq hwritten]
        exact Scope.becomes_insert_same hb
      · refine Scope.becomes_insert ?_ ?_ fun _ c hc => ?_
        · rintro rfl
          exact hsettled (hs.receivers holder b (binding?_of_resolve? hresolve)).settled
        · refine Binding.within_write ?_ hvalue hwritten
          exact NameMap.All.find? (hs.bindings holder a ha) hb
        · rw [hb] at hc
          cases hc
          exact hsettled

/-- A name that does not resolve is not bound by the global scope: the way outward ends there. -/
theorem Intact.binding?_global_of_unresolved (hs : s.Intact) {name : String}
    (hid : id.index < s.scopes.size) (h : s.resolve? id name = none) :
    s.binding? .global name = none := by
  induction hn : id.index using Nat.strongRecOn generalizing id with
  | ind n ih =>
    have hfree : s.binding? id name = none := by
      cases hb : s.binding? id name with
      | none => rfl
      | some b =>
        rw [resolve?_of_binding? hb] at h
        cases h
    by_cases hglobal : id = .global
    · rw [← hglobal]
      exact hfree
    · obtain ⟨a, ha⟩ := scope?_eq_some_iff.mpr hid
      obtain ⟨parent, hparent, hbehind⟩ := hs.nested id a ha hglobal
      have hinside : s.Inside id parent := ⟨hbehind, a, ha, hparent⟩
      rw [hinside.resolve?_eq hfree] at h
      exact ih parent.index (by omega) (by omega) h rfl

/-- In sloppy code a name that nobody binds becomes a global variable. -/
theorem Intact.bind_unresolved (hs : s.Intact) {name : String} (hname : name ≠ "this")
    {value : Value} (hvalue : value.Within s.objects.size) (hid : id.index < s.scopes.size)
    (h : s.resolve? id name = none) : s.Leads kept (s.bind .global name value) := by
  have hfree := hs.binding?_global_of_unresolved hid h
  refine hs.bind hs.named.open_global hname hvalue fun _ b hb => ?_
  rw [hfree] at hb
  cases hb

theorem Intact.copyBindings (hs : s.Intact) {source target : ScopeId} (hsource : s.Open source)
    (htarget : s.Open target) {names : List String} (hnames : ∀ name ∈ names, name ≠ "this")
    (hfree : ∀ name ∈ names, s.Free kept target name) :
    s.Leads kept (s.copyBindings source target names) := by
  have hop : s.Heeds kept (.copy source target names) :=
    ⟨hsource, htarget, fun name hname => (hfree name hname).joined⟩
  refine .of_operation (.copy source target names) hop rfl ?_
  have hnamed : (s.copyBindings source target names).Named := hs.named.perform hop
  unfold Store.copyBindings at hnamed ⊢
  split
  · exact ⟨.refl s, hs⟩
  · rename_i origin hscope
    have horigin := hs.bindings source origin hscope
    simp only [hscope] at hnamed
    exact hs.modifyScope hnamed (fun _ => rfl) fun _ _ =>
      Scope.becomes_copied horigin hnames fun name hname => (hfree name hname).settled

theorem Intact.seedVariable (hs : s.Intact) (d : FunctionDef) (scope : ScopeId) {inner : ScopeId}
    (hopen : s.Open inner) {name : String} (hname : name ≠ "this")
    (hfree : ¬ kept.settled inner name) :
    s.Leads kept (Engine.seedVariable d scope inner s name) := by
  have hdeclared : s.Leads kept (s.declare inner name .variable) :=
    hs.declare hopen hname rfl (.inl rfl)
  unfold Engine.seedVariable
  dsimp only
  split
  · rename_i value hvalue
    have hdeclaredOpen : (s.declare inner name .variable).Open inner := fun other =>
      (hdeclared.evolves.retains.selfName?_of_size (size_modifyScope ..) inner other).trans
        (hopen other)
    refine hdeclared.trans
      (hdeclared.intact.bind hdeclaredOpen hname ?_ fun hkept => absurd hkept hfree)
    split at hvalue
    · exact hs.within_lookup? hvalue
    · cases hvalue
  · exact hdeclared

theorem Intact.seedVariables (hs : s.Intact) (d : FunctionDef) (scope : ScopeId) {inner : ScopeId}
    {names : List String} (hnames : ∀ name ∈ names, name ≠ "this")
    (hfree : ∀ name ∈ names, ¬ kept.settled inner name) (hinner : inner.index < s.scopes.size)
    (hopen : s.Open inner) :
    s.Leads kept (names.foldl (Engine.seedVariable d scope inner) s) := by
  induction names generalizing s with
  | nil => exact hs.leads_self
  | cons name names ih =>
    obtain ⟨hname, hnames⟩ := List.forall_mem_cons.mp hnames
    obtain ⟨hfree, hrest⟩ := List.forall_mem_cons.mp hfree
    have hfirst : s.Leads kept (Engine.seedVariable d scope inner s name) :=
      hs.seedVariable d scope hopen hname hfree
    exact hfirst.trans (ih hfirst.intact hnames hrest (hfirst.evolves.lt hinner)
      (hfirst.evolves.retains.isOpen hinner hopen))

end Store

end ProtoScript

import VideooServer.MulticastRelay
import VideooServer.MutualReferences

/-!
# What belongs to one context of the relay

A context, its objects and its entries in the two tables, seen together.
As long as contexts and objects refer to each other, whatever the handlers
assign to shows in the view of one context only.
-/

namespace VideooServer.MulticastRelay

open MutualReferences

/-- The references between contexts and objects. -/
def App.references (app : App) : References ℕ ℕ Kind where
  holds t k := (app.contexts t).object k
  owner i := (app.objects i).context.map fun t => (t, (app.objects i).kind)

/-- A tag that was given out. -/
def App.Given (app : App) (t : ℕ) : Prop := 0 < t ∧ t < app.nextTag

/-- The tables and the heaps fit together. -/
structure WellFormed (engine : Engine) (app : App) : Prop where
  /-- Contexts and objects refer to each other. -/
  matched : app.references.Matched
  /-- An object that does not exist yet refers to no context. -/
  fresh : ∀ i, app.nextObject ≤ i → (app.objects i).context = none
  /-- A context with an object is registered. -/
  held : ∀ t k i, (app.contexts t).object k = some i → app.tagTable t = true
  /-- A registered context has a tag that was given out. -/
  registered : ∀ t, app.tagTable t = true → app.Given t
  /-- A name is bound to a registered context of a stream with that name. -/
  bound : ∀ n t, app.streamTable n = some t →
    app.tagTable t = true ∧ (app.contexts t).streamName = n ∧ engine.inherited n = false
  /-- A timer is for a context. -/
  timers : ∀ id t, app.intervals id = some t → app.Given t
  /-- Tags are positive. -/
  first : 0 < app.nextTag

/-- A context with its objects and its entries. -/
structure View where
  /-- The context. -/
  context : StreamContext
  /-- Whether it is registered. -/
  registered : Bool
  /-- Whether its name is bound to it. -/
  bound : Bool
  /-- Its objects. -/
  object : Kind → Option NetObject

/-- What belongs to the context with a tag. -/
def App.view (app : App) (t : ℕ) : View where
  context := app.contexts t
  registered := app.tagTable t
  bound := decide (app.streamTable (app.contexts t).streamName = some t)
  object k := ((app.contexts t).object k).map app.objects

/-- A change that concerns one context only, and what it makes of it. -/
structure Becomes (engine : Engine) (app : App) (t : ℕ) (v : View) (app' : App) : Prop where
  /-- Everything still fits together. -/
  wellFormed : WellFormed engine app'
  /-- The context after the change. -/
  view : app'.view t = v
  /-- No other context is concerned. -/
  others : ∀ u, u ≠ t → app'.view u = app.view u
  /-- No tag is given out. -/
  nextTag : app'.nextTag = app.nextTag
  /-- No exception is thrown. -/
  threw : app'.threw = app.threw
  /-- No client is disconnected. -/
  disconnected : app'.disconnected = app.disconnected

variable {engine : Engine} {app app' app'' : App} {t u i j : ℕ} {k : Kind} {v w : View}

theorem Becomes.refl (h : WellFormed engine app) (t : ℕ) : Becomes engine app t (app.view t) app :=
  ⟨h, rfl, fun _ _ => rfl, rfl, rfl, rfl⟩

/-- Changes of one context compose. -/
theorem Becomes.trans (h : Becomes engine app t v app') (h' : Becomes engine app' t w app'') :
    Becomes engine app t w app'' where
  wellFormed := h'.wellFormed
  view := h'.view
  others u hu := (h'.others u hu).trans (h.others u hu)
  nextTag := h'.nextTag.trans h.nextTag
  threw := h'.threw.trans h.threw
  disconnected := h'.disconnected.trans h.disconnected

/-- An object's reference is the counterpart of its context's. -/
theorem WellFormed.context_eq (h : WellFormed engine app)
    (hi : (app.contexts t).object k = some i) :
    (app.objects i).context = some t ∧ (app.objects i).kind = k := by
  have hm := (h.matched i t k).mpr hi
  simpa [App.references] using hm

/-- An object that refers to a context belongs to it. -/
theorem WellFormed.object_eq (h : WellFormed engine app) (hi : (app.objects i).context = some t) :
    (app.contexts t).object (app.objects i).kind = some i := by
  refine (h.matched i t _).mp ?_
  simp [App.references, hi]

/-- A context sees the objects that refer to it. -/
theorem WellFormed.view_object (h : WellFormed engine app) (hi : (app.objects i).context = some t) :
    (app.view t).object (app.objects i).kind = some (app.objects i) := by
  simp [App.view, h.object_eq hi]

/-- Only the context that an object belongs to sees it. -/
theorem WellFormed.object_ne (h : WellFormed engine app) (hi : (app.objects i).context = some t)
    (hj : (app.contexts u).object k = some j) (hne : u ≠ t ∨ k ≠ (app.objects i).kind) : j ≠ i :=
  h.matched.ne hj (h.object_eq hi) hne

/-- A context is seen as before when it, its entries and its objects are as
they were. -/
theorem App.view_congr (hcontext : app'.contexts u = app.contexts u)
    (htag : app'.tagTable u = app.tagTable u)
    (hbound : app'.streamTable (app.contexts u).streamName = some u ↔
      app.streamTable (app.contexts u).streamName = some u)
    (hobjects : ∀ k j, (app.contexts u).object k = some j → app'.objects j = app.objects j) :
    app'.view u = app.view u := by
  have hobject : ∀ k, ((app.contexts u).object k).map app'.objects =
      ((app.contexts u).object k).map app.objects := by
    intro k
    cases ho : (app.contexts u).object k with
    | none => rfl
    | some j => rw [Option.map_some, Option.map_some, hobjects k j ho]
  simp only [App.view, hcontext, htag, hbound, hobject]

/-- A context sees another object in one place when its other objects are as
they were. -/
theorem App.view_object_update {o : NetObject}
    (hself : ((app'.contexts t).object k).map app'.objects = some o)
    (hother : ∀ l j, l ≠ k → (app.contexts t).object l = some j → app'.objects j = app.objects j)
    (hheld : ∀ l, l ≠ k → (app'.contexts t).object l = (app.contexts t).object l) :
    (app'.view t).object = Function.update (app.view t).object k (some o) := by
  funext l
  by_cases hl : l = k
  · subst hl
    rw [Function.update_self]
    exact hself
  · rw [Function.update_of_ne hl]
    simp only [App.view, hheld l hl]
    cases ho : (app.contexts t).object l with
    | none => rfl
    | some j => rw [Option.map_some, Option.map_some, hother l j hl ho]

/-- Assigning to a context shows in its view. -/
theorem becomes_modify (h : WellFormed engine app) (t : ℕ) (f : StreamContext → StreamContext)
    (hobject : (f (app.contexts t)).object = (app.contexts t).object)
    (hname : (f (app.contexts t)).streamName = (app.contexts t).streamName) :
    Becomes engine app t { app.view t with context := f (app.contexts t) } (app.modify t f) := by
  have hall : ∀ u, ((app.modify t f).contexts u).object = (app.contexts u).object ∧
      ((app.modify t f).contexts u).streamName = (app.contexts u).streamName := by
    intro u
    by_cases hu : u = t
    · subst hu
      simp [hobject, hname]
    · simp [app.modify_ne f hu]
  have hreferences : (app.modify t f).references = app.references := by
    simp only [App.references, hall]
    rfl
  refine ⟨⟨?_, h.fresh, ?_, h.registered, ?_, h.timers, h.first⟩, ?_, fun u hu => ?_, rfl, rfl, rfl⟩
  · rw [hreferences]
    exact h.matched
  · intro u k i hi
    rw [(hall u).1] at hi
    exact h.held u k i hi
  · intro n u hn
    rw [(hall u).2]
    exact h.bound n u hn
  · simp only [App.view, App.modify_self, hobject, hname]
    rfl
  · exact App.view_congr (app.modify_ne f hu) rfl Iff.rfl fun _ _ _ => rfl

/-- Assigning to an object shows in the view of its context. -/
theorem becomes_modifyObject (h : WellFormed engine app) (hi : (app.objects i).context = some t)
    (f : NetObject → NetObject) (hcontext : (f (app.objects i)).context = some t)
    (hkind : (f (app.objects i)).kind = (app.objects i).kind) :
    Becomes engine app t
      { app.view t with
        object := Function.update (app.view t).object (app.objects i).kind
          (some (f (app.objects i))) }
      (app.modifyObject i f) := by
  have hall : ∀ j, ((app.modifyObject i f).objects j).context = (app.objects j).context ∧
      ((app.modifyObject i f).objects j).kind = (app.objects j).kind := by
    intro j
    by_cases hj : j = i
    · subst hj
      simp [App.modifyObject, hcontext, hkind, hi]
    · simp [App.modifyObject, hj]
  have hreferences : (app.modifyObject i f).references = app.references := by
    simp only [App.references, hall]
    rfl
  refine ⟨⟨?_, ?_, h.held, h.registered, h.bound, h.timers, h.first⟩, ?_, fun u hu => ?_, rfl,
    rfl, rfl⟩
  · rw [hreferences]
    exact h.matched
  · intro j hj
    rw [(hall j).1]
    exact h.fresh j hj
  · have hobject : ((app.modifyObject i f).view t).object =
        Function.update (app.view t).object (app.objects i).kind (some (f (app.objects i))) := by
      refine App.view_object_update ?_ (fun l j hl ho => ?_) fun _ _ => rfl
      · simp [App.modifyObject, h.object_eq hi]
      · exact Function.update_of_ne (h.object_ne hi ho (Or.inr hl)) ..
    rw [← hobject]
    rfl
  · exact App.view_congr rfl rfl Iff.rfl fun k j hj =>
      Function.update_of_ne (h.object_ne hi hj (Or.inl hu)) ..

/-- Wiring up a new object links it with its context. -/
theorem install_references (app : App) (t : ℕ) (o : NetObject) :
    (app.install t o).references = app.references.link app.nextObject t o.kind := by
  refine References.ext ?_ ?_
  · funext u
    by_cases hu : u = t
    · subst hu
      simp [App.references, References.link, install_contexts_self]
    · simp [App.references, References.link, install_contexts_ne app t o hu, hu]
  · funext j
    by_cases hj : j = app.nextObject
    · subst hj
      simp [App.references, References.link, install_objects_self]
    · simp [App.references, References.link, install_objects_ne app t o hj, hj]

/-- No context refers to an object that does not exist yet. -/
theorem WellFormed.object_ne_next (h : WellFormed engine app)
    (hj : (app.contexts u).object k = some j) : j ≠ app.nextObject := by
  rintro rfl
  have hcontext := (h.context_eq hj).1
  rw [h.fresh _ le_rfl] at hcontext
  cases hcontext

/-- Everything fits together after a new object was wired up. -/
theorem WellFormed.install (h : WellFormed engine app) (o : NetObject)
    (ht : app.tagTable t = true) (hempty : (app.contexts t).object o.kind = none) :
    WellFormed engine (app.install t o) := by
  have hnew : app.references.owner app.nextObject = none := by
    simp [App.references, h.fresh app.nextObject le_rfl]
  refine ⟨?_, fun j hj => ?_, fun u k j hj => ?_, h.registered, fun n u hn => ?_, h.timers,
    h.first⟩
  · rw [install_references]
    exact h.matched.link hnew hempty
  · have hlt : app.nextObject + 1 ≤ j := hj
    rw [install_objects_ne app t o (by omega)]
    exact h.fresh j (by omega)
  · by_cases hu : u = t
    · rw [hu]
      exact ht
    · rw [install_contexts_ne app t o hu] at hj
      exact h.held u k j hj
  · rw [install_streamName]
    exact h.bound n u hn

/-- The context sees the new object. -/
theorem WellFormed.install_view (h : WellFormed engine app) (t : ℕ) (o : NetObject) :
    (app.install t o).view t =
      { app.view t with
        context := (app.contexts t).setObject o.kind (some app.nextObject)
        object := Function.update (app.view t).object o.kind
          (some { o with context := some t, onStatus := true }) } := by
  have hobject : ((app.install t o).view t).object = Function.update (app.view t).object o.kind
      (some { o with context := some t, onStatus := true }) := by
    refine App.view_object_update ?_ (fun l j _ ho => ?_) fun l hl => ?_
    · simp [install_contexts_self, install_objects_self]
    · exact install_objects_ne app t o (h.object_ne_next ho)
    · simp [install_contexts_self, hl]
  rw [← hobject]
  simp [App.view, App.install, App.modify]

/-- Wiring up a new object shows in the view of its context. -/
theorem becomes_install (h : WellFormed engine app) (o : NetObject) (ht : app.tagTable t = true)
    (hempty : (app.contexts t).object o.kind = none) :
    Becomes engine app t
      { app.view t with
        context := (app.contexts t).setObject o.kind (some app.nextObject)
        object := Function.update (app.view t).object o.kind
          (some { o with context := some t, onStatus := true }) }
      (app.install t o) where
  wellFormed := h.install o ht hempty
  view := h.install_view t o
  others _ hu := App.view_congr (install_contexts_ne app t o hu) rfl Iff.rfl fun _ _ hj =>
    install_objects_ne app t o (h.object_ne_next hj)
  nextTag := rfl
  threw := rfl
  disconnected := rfl

/-- Unbinding shows in the view of the context that is unbound. -/
theorem becomes_unbind (h : WellFormed engine app) (t : ℕ) :
    Becomes engine app t { app.view t with bound := false } (unbind app t) := by
  by_cases hbound : app.streamTable (app.contexts t).streamName = some t
  · have hunbind : unbind app t = { app with
        streamTable := Function.update app.streamTable (app.contexts t).streamName none } :=
      if_pos hbound
    rw [hunbind]
    refine ⟨⟨h.matched, h.fresh, h.held, h.registered, ?_, h.timers, h.first⟩, ?_, fun u hu => ?_,
      rfl, rfl, rfl⟩
    · intro n u hn
      dsimp only at hn
      by_cases hname : n = (app.contexts t).streamName
      · rw [hname, Function.update_self] at hn
        cases hn
      · rw [Function.update_of_ne hname] at hn
        exact h.bound n u hn
    · simp [App.view]
    · have hother : Function.update app.streamTable (app.contexts t).streamName none
          (app.contexts u).streamName = some u ↔
            app.streamTable (app.contexts u).streamName = some u := by
        by_cases hname : (app.contexts u).streamName = (app.contexts t).streamName
        · rw [hname, Function.update_self, hbound]
          simp [Ne.symm hu]
        · rw [Function.update_of_ne hname]
      exact App.view_congr rfl rfl hother fun _ _ _ => rfl
  · have hunbind : unbind app t = app := if_neg hbound
    have hview : { app.view t with bound := false } = app.view t := by
      simp [App.view, hbound]
    rw [hunbind, hview]
    exact .refl h t

/-- The end of a delayed shutdown shows in the view of its context. -/
theorem becomes_clearShutdown (h : WellFormed engine app) (t : ℕ) :
    Becomes engine app t
      { app.view t with context := { app.contexts t with shutdownID := none } }
      (clearShutdown app t) := by
  rw [clearShutdown]
  cases hid : (app.contexts t).shutdownID with
  | none =>
    have hview : { app.view t with context := { app.contexts t with shutdownID := none } } =
        app.view t := by
      rw [← hid]
      rfl
    rw [hview]
    exact .refl h t
  | some id =>
    have hmodify := becomes_modify h t (fun c => { c with shutdownID := none })
      (by funext k; cases k <;> rfl) rfl
    refine ⟨⟨hmodify.wellFormed.matched, h.fresh, hmodify.wellFormed.held, h.registered,
      hmodify.wellFormed.bound, ?_, h.first⟩, hmodify.view, hmodify.others, rfl, rfl, rfl⟩
    intro i u hi
    dsimp only at hi
    by_cases hne : i = id
    · rw [hne, Function.update_self] at hi
      cases hi
    · rw [Function.update_of_ne hne] at hi
      exact h.timers i u hi

/-- Objects of other contexts are not touched when one is unregistered. -/
theorem WellFormed.unregister_ne (h : WellFormed engine app)
    (hj : (app.objects j).context ≠ some t) :
    (unregisterStreamContext app t).objects j = app.objects j := by
  have hnone : ∀ k, (app.contexts t).object k ≠ some j := fun k hk => hj (h.context_eq hk).1
  have hc : (app.contexts t).netConnection ≠ some j := hnone .netConnection
  have hg : (app.contexts t).netGroup ≠ some j := hnone .netGroup
  have hs : (app.contexts t).mcastNetStream ≠ some j := hnone .netStream
  simp [unregisterStreamContext, App.modify, hc, hg, hs]

/-- Its own objects refer to no context any more. -/
theorem WellFormed.unregister_self (h : WellFormed engine app)
    (hj : (app.objects j).context = some t) :
    ((unregisterStreamContext app t).objects j).context = none := by
  have hobject := h.object_eq hj
  cases hk : (app.objects j).kind with
  | netConnection =>
    have hc : (app.contexts t).netConnection = some j := by rw [hk] at hobject; exact hobject
    simp only [unregisterStreamContext, App.modify, App.modifyObject?_objects, hc, if_true]
    split_ifs <;> rfl
  | netGroup =>
    have hg : (app.contexts t).netGroup = some j := by rw [hk] at hobject; exact hobject
    simp [unregisterStreamContext, App.modify, hg, NetObject.release]
  | netStream =>
    have hs : (app.contexts t).mcastNetStream = some j := by rw [hk] at hobject; exact hobject
    simp only [unregisterStreamContext, App.modify, App.modifyObject?_objects, hs, if_true]
    split_ifs <;> rfl

/-- Unregistering a context drops its references and those of its objects. -/
theorem WellFormed.unregister_references (h : WellFormed engine app) (t : ℕ) :
    (unregisterStreamContext app t).references = app.references.clear t := by
  refine References.ext ?_ ?_
  · funext u
    by_cases hu : u = t
    · subst hu
      simp only [App.references, References.clear, Function.update_self, unregister_object]
    · simp only [App.references, References.clear, Function.update_of_ne hu,
        unregister_contexts_ne app t hu]
  · funext j
    by_cases hj : (app.objects j).context = some t
    · rw [References.clear_owner_self (by simp [App.references, hj])]
      simp [App.references, h.unregister_self hj]
    · rw [References.clear_owner_ne (by
        simpa [App.references, Option.map_map, Function.comp_def] using hj)]
      simp [App.references, h.unregister_ne hj]

/-- Everything fits together after a context that is not bound was
unregistered. -/
theorem WellFormed.unregister (h : WellFormed engine app) (hbound : (app.view t).bound = false) :
    WellFormed engine (unregisterStreamContext app t) := by
  have hnot : app.streamTable (app.contexts t).streamName ≠ some t := of_decide_eq_false hbound
  refine ⟨?_, fun j hj => ?_, fun u k i hi => ?_, fun u hu => ?_, fun n u hn => ?_,
    fun id u hu => ?_, ?_⟩
  · rw [h.unregister_references]
    exact h.matched.clear t
  · rw [unregister_nextObject] at hj
    have hfree := h.fresh j hj
    rw [h.unregister_ne (by rw [hfree]; simp), hfree]
  · by_cases hu : u = t
    · rw [hu, unregister_object] at hi
      cases hi
    · rw [unregister_contexts_ne app t hu] at hi
      rw [unregister_tagTable, Function.update_of_ne hu]
      exact h.held u k i hi
  · rw [App.Given, unregister_nextTag]
    rw [unregister_tagTable] at hu
    by_cases hut : u = t
    · rw [hut, Function.update_self] at hu
      cases hu
    · rw [Function.update_of_ne hut] at hu
      exact h.registered u hu
  · rw [unregister_streamTable] at hn
    obtain ⟨htag, hname, hown⟩ := h.bound n u hn
    have hu : u ≠ t := by
      rintro rfl
      rw [hname] at hnot
      exact hnot hn
    rw [unregister_tagTable, Function.update_of_ne hu, unregister_contexts_ne app t hu]
    exact ⟨htag, hname, hown⟩
  · rw [unregister_intervals] at hu
    rw [App.Given, unregister_nextTag]
    exact h.timers id u hu
  · rw [unregister_nextTag]
    exact h.first

/-- The context has no object and no entry any more. -/
theorem unregister_view (app : App) (t : ℕ) :
    (unregisterStreamContext app t).view t =
      { app.view t with
        context := { app.contexts t with
          netConnection := none, mcastNetStream := none, netGroup := none, sourceStream := none }
        registered := false
        object := fun _ => none } := by
  simp only [App.view, unregister_object, unregister_tagTable, unregister_streamTable,
    Function.update_self, Option.map_none]
  rw [unregister_contexts_self]

/-- No other context is concerned. -/
theorem WellFormed.unregister_view_ne (h : WellFormed engine app) (hu : u ≠ t) :
    (unregisterStreamContext app t).view u = app.view u := by
  refine App.view_congr (unregister_contexts_ne app t hu) ?_ ?_ fun k j hj => ?_
  · rw [unregister_tagTable, Function.update_of_ne hu]
  · rw [unregister_streamTable]
  · refine h.unregister_ne ?_
    rw [(h.context_eq hj).1]
    simpa using hu

/-- Unregistering a context that is not bound shows in its view: no object
is left. -/
theorem becomes_unregister (h : WellFormed engine app) (t : ℕ)
    (hbound : (app.view t).bound = false) :
    Becomes engine app t
      { app.view t with
        context := { app.contexts t with
          netConnection := none, mcastNetStream := none, netGroup := none, sourceStream := none }
        registered := false
        object := fun _ => none }
      (unregisterStreamContext app t) where
  wellFormed := h.unregister hbound
  view := unregister_view app t
  others _ hu := h.unregister_view_ne hu
  nextTag := unregister_nextTag app t
  threw := unregister_threw app t
  disconnected := unregister_disconnected app t

/-- A change that makes a new context, and no other change. -/
structure Starts (engine : Engine) (app : App) (v : View) (app' : App) : Prop where
  /-- Everything still fits together. -/
  wellFormed : WellFormed engine app'
  /-- The new context. -/
  view : app'.view app.nextTag = v
  /-- No other context is concerned. -/
  others : ∀ u, u ≠ app.nextTag → app'.view u = app.view u
  /-- One tag is given out. -/
  nextTag : app'.nextTag = app.nextTag + 1
  /-- No exception is thrown. -/
  threw : app'.threw = app.threw
  /-- No client is disconnected. -/
  disconnected : app'.disconnected = app.disconnected

/-- A new context goes on to change. -/
theorem Starts.trans (h : Starts engine app v app') (h' : Becomes engine app' app.nextTag w app'') :
    Starts engine app w app'' where
  wellFormed := h'.wellFormed
  view := h'.view
  others u hu := (h'.others u hu).trans (h.others u hu)
  nextTag := h'.nextTag.trans h.nextTag
  threw := h'.threw.trans h.threw
  disconnected := h'.disconnected.trans h.disconnected

/-- A tag that was not given out is not registered. -/
theorem WellFormed.not_registered (h : WellFormed engine app) (ht : app.nextTag ≤ t) :
    app.tagTable t = false := by
  cases hreg : app.tagTable t with
  | false => rfl
  | true =>
    have hlt := (h.registered t hreg).2
    omega

/-- A context that is not registered has no object. -/
theorem WellFormed.no_object (h : WellFormed engine app) (ht : app.tagTable t = false) (k : Kind) :
    (app.contexts t).object k = none := by
  cases ho : (app.contexts t).object k with
  | none => rfl
  | some i =>
    have hheld := h.held t k i ho
    rw [ht] at hheld
    cases hheld

/-- The context of a stream that has been registered. -/
def newContext (client : Client) (stream : SourceStream) (params : MulticastQuery.Params) :
    StreamContext :=
  (registerStream onAppStart client stream params).contexts 1

section Register

variable (client : Client) (stream : SourceStream) (params : MulticastQuery.Params)

/-- The new context is the same wherever it is made. -/
theorem register_contexts_self (app : App) :
    (registerStream app client stream params).contexts app.nextTag =
      newContext client stream params := by
  simp [registerStream, newContext, onAppStart]

/-- A stream that is registered brings no object along. -/
theorem WellFormed.register_object (h : WellFormed engine app) (u : ℕ) :
    ((registerStream app client stream params).contexts u).object = (app.contexts u).object := by
  by_cases hu : u = app.nextTag
  · subst hu
    rw [register_contexts_self]
    funext k
    rw [h.no_object (h.not_registered le_rfl)]
    cases k <;> rfl
  · rw [register_contexts_ne app client stream params hu]

/-- Registering a stream changes no reference. -/
theorem WellFormed.register_references (h : WellFormed engine app) :
    (registerStream app client stream params).references = app.references := by
  simp only [App.references, h.register_object client stream params]
  rfl

/-- Everything fits together after a stream was registered. -/
theorem WellFormed.register (h : WellFormed engine app)
    (hown : engine.inherited stream.name = false) :
    WellFormed engine (registerStream app client stream params) := by
  refine ⟨?_, h.fresh, fun u k i hi => ?_, fun u hu => ?_, fun n u hn => ?_, fun id u hu => ?_,
    Nat.succ_pos _⟩
  · rw [h.register_references]
    exact h.matched
  · rw [h.register_object] at hi
    by_cases hu : u = app.nextTag
    · rw [hu]
      exact register_tagTable_self ..
    · rw [register_tagTable_ne app client stream params hu]
      exact h.held u k i hi
  · by_cases hut : u = app.nextTag
    · subst hut
      exact ⟨h.first, Nat.lt_succ_self _⟩
    · rw [register_tagTable_ne app client stream params hut] at hu
      have hgiven := h.registered u hu
      exact ⟨hgiven.1, Nat.lt_succ_of_lt hgiven.2⟩
  · by_cases hstream : n = stream.name
    · subst hstream
      rw [register_streamTable_self] at hn
      obtain rfl := Option.some.inj hn
      rw [register_contexts_self]
      exact ⟨register_tagTable_self .., rfl, hown⟩
    · rw [register_streamTable_ne app client stream params hstream] at hn
      obtain ⟨hreg, hnu, hinherited⟩ := h.bound n u hn
      have hu : u ≠ app.nextTag := (h.registered u hreg).2.ne
      rw [register_contexts_ne app client stream params hu,
        register_tagTable_ne app client stream params hu]
      exact ⟨hreg, hnu, hinherited⟩
  · exact ⟨(h.timers id u hu).1, Nat.lt_succ_of_lt (h.timers id u hu).2⟩

/-- The new context is registered and bound. -/
theorem register_view (app : App) :
    (registerStream app client stream params).view app.nextTag =
      { context := newContext client stream params
        registered := true
        bound := true
        object := fun _ => none } := by
  have hname : (newContext client stream params).streamName = stream.name := rfl
  simp only [App.view, register_contexts_self, register_tagTable_self, hname,
    register_streamTable_self, decide_true, View.mk.injEq, true_and]
  funext k
  cases k <;> rfl

/-- Under a free name no other context is concerned. -/
theorem register_view_ne (hfree : app.streamTable stream.name = none) (hu : u ≠ app.nextTag) :
    (registerStream app client stream params).view u = app.view u := by
  refine App.view_congr (register_contexts_ne app client stream params hu)
    (register_tagTable_ne app client stream params hu) ?_ fun _ _ _ => rfl
  by_cases hun : (app.contexts u).streamName = stream.name
  · rw [hun, register_streamTable_self, hfree]
    simpa using hu.symm
  · rw [register_streamTable_ne app client stream params hun]

/-- Registering a stream under a free name makes a new context without an
object, to which the name is bound. -/
theorem starts_registerStream (h : WellFormed engine app)
    (hfree : app.streamTable stream.name = none) (hown : engine.inherited stream.name = false) :
    Starts engine app
      { context := newContext client stream params
        registered := true
        bound := true
        object := fun _ => none }
      (registerStream app client stream params) where
  wellFormed := h.register client stream params hown
  view := register_view client stream params app
  others _ hu := register_view_ne client stream params hfree hu
  nextTag := rfl
  threw := rfl
  disconnected := rfl

end Register

/-- The connection that is opened for a client. -/
def newConnection (client : Client) (t : ℕ) : NetObject :=
  { NetObject.new .netConnection
      (MulticastQuery.resetUriProtocol client.uri (ByteText.ascii "rtmfp")) with
    context := some t, onStatus := true }

/-- A stream that is published under a free name gets a context with a
connection that is being opened. -/
theorem starts_open (h : WellFormed engine app) (client : Client) (stream : SourceStream)
    (params : MulticastQuery.Params) (hfree : app.streamTable stream.name = none)
    (hown : engine.inherited stream.name = false) :
    Starts engine app
      { context := { newContext client stream params with
          netConnection := some app.nextObject, state := .connecting }
        registered := true
        bound := true
        object := Function.update (fun _ => none) .netConnection
          (some (newConnection client app.nextTag)) }
      (openMulticastConnection (registerStream app client stream params) app.nextTag) := by
  have hstart := starts_registerStream client stream params h hfree hown
  have hcontext : (registerStream app client stream params).contexts app.nextTag =
      newContext client stream params := congrArg View.context hstart.view
  have hreg : (registerStream app client stream params).tagTable app.nextTag =
      true := congrArg View.registered hstart.view
  have hclient : (newContext client stream params).client = client := rfl
  have hinstall := becomes_install hstart.wellFormed
    (.new .netConnection (MulticastQuery.resetUriProtocol client.uri (ByteText.ascii "rtmfp")))
    hreg (by rw [hcontext]; rfl)
  have hmodify := becomes_modify hinstall.wellFormed app.nextTag
    (fun c => { c with state := .connecting }) (by funext k; cases k <;> rfl) rfl
  have hview := hinstall.view
  have hopen := hstart.trans (hinstall.trans hmodify)
  rw [hview, hstart.view] at hopen
  rw [openMulticastConnection, hcontext, hclient]
  have hctx := congrArg View.context hview
  rw [show ∀ (a : App), (a.view app.nextTag).context = a.contexts app.nextTag from fun _ => rfl]
    at hctx
  rw [hctx, hcontext] at hopen
  exact hopen

end VideooServer.MulticastRelay

import VideooServer.RelayViews

/-!
# The life of a relayed stream

What holds of every context of the relay between two events, as a condition
on its view, and that each handler keeps it for all contexts. It rules out
that a handler finds an object missing, and it ties the state of a context
to the binding of its name.
-/

namespace VideooServer.MulticastRelay

open MulticastQuery

/-- An object of a context has reported a status. -/
def View.HasReported (v : View) (k : Kind) (code : Code) : Prop :=
  ∃ o, v.object k = some o ∧ code ∈ o.reported

/-- A context whose event type uses a group of its own. -/
def StreamContext.Joins (engine : Engine) (c : StreamContext) : Prop :=
  eventType engine.toNumber c.type = some .fusion ∨ eventType engine.toNumber c.type = some .p2p

/-- A context with the parameters that its event type needs. -/
structure StreamContext.Valid (engine : Engine) (c : StreamContext) : Prop where
  /-- The event type is one of the three. -/
  type : eventType engine.toNumber c.type ≠ none
  /-- There is a group. -/
  groupspec : c.groupspec ≠ []
  /-- Types that use IP multicast have an address. -/
  address : eventType engine.toNumber c.type ≠ some .p2p → c.address ≠ none

/-- A request to publish again that may wait at a context. -/
structure StreamContext.MayQueue (engine : Engine) (c : StreamContext) (client : Client)
    (stream : SourceStream) : Prop where
  /-- It is for the same name. -/
  name : stream.name = c.streamName
  /-- It is from the same client. -/
  client : c.SameClient client
  /-- It has passed the check. -/
  validated :
    validateStreamParams engine.toNumber (parseQueryString stream.publishQueryString) = true

/-- What holds of the request behind a context. -/
structure Requested (engine : Engine) (c : StreamContext) : Prop where
  /-- What waits may wait. -/
  queued : ∀ client stream, c.republishInfo = some (client, stream) →
    c.MayQueue engine client stream
  /-- The parameters are those that the event type needs. -/
  valid : c.Valid engine
  /-- The name is not found without an entry in the table. -/
  own : engine.inherited c.streamName = false

/-- What holds of a context between two events. -/
structure Consistent (engine : Engine) (v : View) : Prop where
  /-- A registered context has a connection. -/
  connection : v.registered = true → ∃ o, v.object .netConnection = some o
  /-- The handler of a connection stays installed. -/
  listening : ∀ o, v.object .netConnection = some o → o.onStatus = true
  /-- Otherwise it is shut down for good. -/
  gone : v.registered = false → v.bound = false ∧ v.context.republishInfo = none ∧
    v.context.state.number ∈ [5, 7, 8]
  /-- There is a group only if the event type uses it, and after the connection. -/
  group : ∀ o, v.object .netGroup = some o →
    v.HasReported .netConnection .connectSuccess ∧ v.context.Joins engine
  /-- There is a stream only after the connection and after the group. -/
  stream : ∀ o, v.object .netStream = some o →
    v.HasReported .netConnection .connectSuccess ∧
      (v.context.Joins engine → v.HasReported .netGroup .connectSuccess)
  /-- While the relay is active, the name is bound to it. -/
  active : v.context.state.Active → v.bound = true ∧ v.context.state ≠ .init
  /-- A connection that may still be established belongs to a connecting context. -/
  opening : ∀ o, v.object .netConnection = some o → .connectSuccess ∉ o.reported →
    o.closed = false → v.context.state = .connecting
  /-- A group that may still be joined belongs to a connected context. -/
  joining : ∀ o, v.object .netGroup = some o → o.onStatus = true →
    .connectSuccess ∉ o.reported → v.context.state = .connected
  /-- A stream that may still start to publish belongs to a bound context. -/
  pending : ∀ o, v.object .netStream = some o → o.onStatus = true →
    .publishStart ∉ o.reported → v.bound = true
  /-- A relayed stream has started to publish. -/
  relayed : v.context.state = .republishing → v.HasReported .netStream .publishStart
  /-- The request was in order. -/
  requested : Requested engine v.context

/-- What holds between two events. -/
structure Invariant (engine : Engine) (app : App) : Prop where
  /-- The tables and the heaps fit together. -/
  wellFormed : WellFormed engine app
  /-- So does every context. -/
  consistent : ∀ t, app.Given t → Consistent engine (app.view t)

/-- A handler keeps what holds, and throws nothing. -/
structure Keeps (engine : Engine) (app app' : App) : Prop where
  /-- The invariant. -/
  invariant : Invariant engine app'
  /-- No exception is thrown. -/
  threw : app'.threw = app.threw
  /-- Tags are only given out. -/
  nextTag : app.nextTag ≤ app'.nextTag

/-- The view after the first two parts of destroyStreamContext. -/
def View.shutdown (v : View) : View :=
  { v with bound := false, context := { v.context with shutdownID := none } }

/-- The view after stopPublishing. -/
def View.stopPublishing (v : View) : View :=
  { v with
    context := { v.context with state := .unpublishing }
    object := Function.update v.object .netStream ((v.object .netStream).map fun o =>
      { o with attached := false, stream := none, publishing := false }) }

/-- The view after closeConnection. -/
def View.closeConnection (v : View) : View :=
  { v with
    context := { v.context with
      sourceStream :=
        if v.context.mcastNetStream.isSome then none else v.context.sourceStream
      state := .disconnecting }
    object := fun
      | .netConnection => (v.object .netConnection).map fun o => { o with closed := true }
      | .netGroup => (v.object .netGroup).map fun o => { o with onStatus := false }
      | .netStream => (v.object .netStream).map fun o =>
          { o with attached := false, stream := none, onStatus := false } }

/-- The view after unregisterStreamContext. -/
def View.unregister (v : View) : View :=
  { v with
    context := { v.context with
      netConnection := none, mcastNetStream := none, netGroup := none, sourceStream := none }
    registered := false
    object := fun _ => none }

variable {engine : Engine} {calls : Calls} {app app' app'' : App} {t u i : ℕ} {k : Kind}
  {v : View} {o : NetObject} {client : Client} {stream : SourceStream} {code : Code}

/-- Handlers that keep what holds compose. -/
theorem Keeps.trans (h : Keeps engine app app') (h' : Keeps engine app' app'') :
    Keeps engine app app'' :=
  ⟨h'.invariant, h'.threw.trans h.threw, h.nextTag.trans h'.nextTag⟩

/-- Doing nothing keeps what holds. -/
theorem Invariant.keeps (h : Invariant engine app) : Keeps engine app app := ⟨h, rfl, le_rfl⟩

/-- A change of one context keeps the invariant when it keeps the context
consistent. -/
theorem Becomes.keeps (h : Invariant engine app) (hb : Becomes engine app t v app')
    (hv : Consistent engine v) : Keeps engine app app' := by
  refine ⟨⟨hb.wellFormed, fun u hu => ?_⟩, hb.threw, hb.nextTag.ge⟩
  by_cases hut : u = t
  · rw [hut, hb.view]
    exact hv
  · rw [App.Given, hb.nextTag] at hu
    rw [hb.others u hut]
    exact h.consistent u hu

/-- So does a change that makes a consistent context. -/
theorem Starts.keeps (h : Invariant engine app) (hs : Starts engine app v app')
    (hv : Consistent engine v) : Keeps engine app app' := by
  refine ⟨⟨hs.wellFormed, fun u hu => ?_⟩, hs.threw, by rw [hs.nextTag]; omega⟩
  by_cases hut : u = app.nextTag
  · rw [hut, hs.view]
    exact hv
  · rw [App.Given, hs.nextTag] at hu
    rw [hs.others u hut]
    exact h.consistent u ⟨hu.1, by omega⟩

/-- An object that a context sees is in the heap. -/
theorem exists_of_view_object (h : (app.view t).object k = some o) :
    ∃ i, (app.contexts t).object k = some i ∧ app.objects i = o :=
  Option.map_eq_some_iff.mp h

/-- Assigning to an object that may be missing. -/
theorem becomes_modifyObject? (h : WellFormed engine app) (t : ℕ) (k : Kind)
    (f : NetObject → NetObject) (hcontext : ∀ o, (f o).context = o.context)
    (hkind : ∀ o, (f o).kind = o.kind) :
    Becomes engine app t
      { app.view t with
        object := Function.update (app.view t).object k (((app.view t).object k).map f) }
      (app.modifyObject? ((app.contexts t).object k) f) := by
  cases hi : (app.contexts t).object k with
  | none =>
    have hview : { app.view t with
        object := Function.update (app.view t).object k (((app.view t).object k).map f) } =
          app.view t := by
      have hnone : (app.view t).object k = none := by simp [App.view, hi]
      rw [hnone, Option.map_none, ← hnone, Function.update_eq_self]
    rw [hview]
    exact .refl h t
  | some i =>
    obtain ⟨hcontext', rfl⟩ := h.context_eq hi
    have hmodify := becomes_modifyObject h hcontext' f ((hcontext _).trans hcontext') (hkind _)
    rw [h.view_object hcontext']
    exact hmodify

/-- The context after a change. -/
theorem Becomes.context (hb : Becomes engine app t v app') : app'.contexts t = v.context :=
  congrArg View.context hb.view

/-- A context is assigned to after a change. -/
theorem Becomes.modify (hb : Becomes engine app t v app') (f : StreamContext → StreamContext)
    (hobject : (f v.context).object = v.context.object)
    (hname : (f v.context).streamName = v.context.streamName) :
    Becomes engine app t { v with context := f v.context } (app'.modify t f) := by
  have hmodify := becomes_modify hb.wellFormed t f (by rw [hb.context, hobject])
    (by rw [hb.context, hname])
  rw [hb.view, hb.context] at hmodify
  exact hb.trans hmodify

/-- An object is assigned to after a change. -/
theorem Becomes.modifyObject? (hb : Becomes engine app t v app') (k : Kind)
    (f : NetObject → NetObject) (hcontext : ∀ o, (f o).context = o.context)
    (hkind : ∀ o, (f o).kind = o.kind) :
    Becomes engine app t { v with object := Function.update v.object k ((v.object k).map f) }
      (app'.modifyObject? (v.context.object k) f) := by
  have hmodify := becomes_modifyObject? hb.wellFormed t k f hcontext hkind
  rw [hb.view, hb.context] at hmodify
  exact hb.trans hmodify

/-- The first two parts of destroyStreamContext. -/
theorem becomes_shutdown (h : WellFormed engine app) (t : ℕ) :
    Becomes engine app t (app.view t).shutdown (clearShutdown (unbind app t) t) := by
  have hunbind := becomes_unbind h t
  have hclear := becomes_clearShutdown hunbind.wellFormed t
  rw [hunbind.view, hunbind.context] at hclear
  exact hunbind.trans hclear

/-- A relayed stream with its object is stopped. -/
theorem Becomes.stopPublishing (hb : Becomes engine app t v app')
    (ho : v.object .netStream = some o) :
    Becomes engine app t v.stopPublishing (stopPublishing app' t) := by
  have hobject : (app'.view t).object .netStream = some o := by rw [hb.view, ho]
  obtain ⟨i, hi, -⟩ := exists_of_view_object hobject
  have hs : (app'.contexts t).mcastNetStream = some i := hi
  rw [hb.context] at hi
  have hstop := (hb.modifyObject? .netStream
    (fun o => { o with attached := false, stream := none, publishing := false })
    (fun _ => rfl) fun _ => rfl).modify (fun c => { c with state := .unpublishing })
      (by funext k; cases k <;> rfl) rfl
  rw [hi] at hstop
  rw [MulticastRelay.stopPublishing, hs]
  exact hstop

/-- A context with a connection is told to close it. -/
theorem Becomes.closeConnection (hb : Becomes engine app t v app')
    (ho : v.object .netConnection = some o) :
    Becomes engine app t v.closeConnection (closeConnection app' t) := by
  have hobject : (app'.view t).object .netConnection = some o := by rw [hb.view, ho]
  obtain ⟨i, hi, -⟩ := exists_of_view_object hobject
  rw [hb.context] at hi
  have hc : v.context.netConnection = some i := hi
  have hclosed := ((((hb.modifyObject? .netGroup (fun o => { o with onStatus := false })
    (fun _ => rfl) fun _ => rfl).modifyObject? .netStream
    (fun o => { o with attached := false, stream := none, onStatus := false })
    (fun _ => rfl) fun _ => rfl).modify (fun c => { c with
      sourceStream := if c.mcastNetStream.isSome then none else c.sourceStream })
      (by funext k; cases k <;> rfl) rfl).modifyObject? .netConnection
    (fun o => { o with closed := true }) (fun _ => rfl) fun _ => rfl).modify
      (fun c => { c with state := .disconnecting }) (by funext k; cases k <;> rfl) rfl
  convert hclosed using 1
  · simp only [View.closeConnection, View.mk.injEq, true_and]
    funext k
    cases k <;> simp
  · simp only [MulticastRelay.closeConnection, hb.context, StreamContext.object, hc]
    rfl

/-- A context is unregistered after a change. -/
theorem Becomes.unregister (hb : Becomes engine app t v app') (hbound : v.bound = false) :
    Becomes engine app t v.unregister (unregisterStreamContext app' t) := by
  have hunregister := becomes_unregister hb.wellFormed t (by rw [hb.view, hbound])
  rw [hb.view, hb.context] at hunregister
  exact hb.trans hunregister

/-- What a context keeps of the request while its state changes. -/
def StreamContext.request (c : StreamContext) :
    Client × ByteText.Bytes × ByteText.Bytes × ByteText.Bytes × Option ByteText.Bytes ×
      Option (Client × SourceStream) :=
  (c.client, c.streamName, c.type, c.groupspec, c.address, c.republishInfo)

/-- Only the request matters. -/
theorem Requested.congr {c c' : StreamContext} (h : Requested engine c)
    (he : c'.request = c.request) : Requested engine c' := by
  simp only [StreamContext.request, Prod.mk.injEq] at he
  obtain ⟨hclient, hname, htype, hgroup, haddress, hqueue⟩ := he
  refine ⟨fun client stream hq => ?_, ⟨?_, ?_, ?_⟩, ?_⟩
  · obtain ⟨hn, hc, hv⟩ := h.queued client stream (hqueue ▸ hq)
    refine ⟨by rw [hn, hname], ?_, hv⟩
    rwa [StreamContext.SameClient, hclient]
  · rw [htype]
    exact h.valid.type
  · rw [hgroup]
    exact h.valid.groupspec
  · rw [htype, haddress]
    exact h.valid.address
  · rw [hname]
    exact h.own

/-- What waits may be replaced by what may wait. -/
theorem Requested.requeue {c : StreamContext} (h : Requested engine c)
    (waiting : Option (Client × SourceStream))
    (hmay : ∀ client stream, waiting = some (client, stream) → c.MayQueue engine client stream) :
    Requested engine { c with republishInfo := waiting } := by
  refine ⟨fun client stream hq => ?_, ⟨h.valid.type, h.valid.groupspec, h.valid.address⟩, h.own⟩
  obtain ⟨hname, hclient, hvalidated⟩ := hmay client stream hq
  exact ⟨hname, hclient, hvalidated⟩

/-- A context that is relayed is registered. -/
theorem Consistent.registered (h : Consistent engine v)
    (hstate : v.context.state.number ∉ [5, 7, 8]) : v.registered = true := by
  cases hreg : v.registered with
  | true => rfl
  | false => exact absurd (h.gone hreg).2.2 hstate

/-- Stopping a relay leaves a consistent context. -/
theorem Consistent.stopPublishing (h : Consistent engine v)
    (hstate : v.context.state = .republishing) :
    Consistent engine v.shutdown.stopPublishing := by
  have hreg : v.registered = true := h.registered (by rw [hstate]; decide)
  obtain ⟨s, hs, hstarted⟩ := h.relayed hstate
  constructor
  case connection =>
    intro _
    obtain ⟨o, ho⟩ := h.connection hreg
    exact ⟨o, by simpa [View.stopPublishing, View.shutdown] using ho⟩
  case listening =>
    intro o ho
    exact h.listening o (by simpa [View.stopPublishing, View.shutdown] using ho)
  case gone =>
    intro hgone
    exact absurd (hreg.symm.trans hgone) (by decide)
  case group =>
    intro o ho
    have hold : v.object .netGroup = some o := by
      simpa [View.stopPublishing, View.shutdown] using ho
    have hg := h.group o hold
    exact ⟨by simpa [View.HasReported, View.stopPublishing, View.shutdown] using hg.1, hg.2⟩
  case stream =>
    intro o _
    have hg := h.stream s hs
    simpa [View.HasReported, View.stopPublishing, View.shutdown, StreamContext.Joins] using hg
  case active =>
    intro hactive
    have hnot : ¬StreamState.unpublishing.Active := by decide
    exact absurd hactive hnot
  case opening =>
    intro o ho hnot hopen
    have hold := h.opening o (by simpa [View.stopPublishing, View.shutdown] using ho) hnot hopen
    rw [hstate] at hold
    cases hold
  case joining =>
    intro o ho hon hnot
    have hold := h.joining o (by simpa [View.stopPublishing, View.shutdown] using ho) hon hnot
    rw [hstate] at hold
    cases hold
  case pending =>
    intro o ho _ hnot
    have hnew : { s with attached := false, stream := none, publishing := false } = o := by
      simpa [View.stopPublishing, View.shutdown, hs] using ho
    rw [← hnew] at hnot
    exact absurd hstarted hnot
  case relayed =>
    intro hre
    cases hre
  case requested => exact h.requested.congr rfl

/-- Closing the connection leaves a consistent context. -/
theorem Consistent.closeConnection (h : Consistent engine v) (hreg : v.registered = true) :
    Consistent engine v.shutdown.closeConnection := by
  obtain ⟨c, hc⟩ := h.connection hreg
  constructor
  case connection =>
    intro _
    exact ⟨{ c with closed := true }, by simp [View.closeConnection, View.shutdown, hc]⟩
  case listening =>
    intro o ho
    obtain ⟨p, hp, rfl⟩ := Option.map_eq_some_iff.mp ho
    exact h.listening p hp
  case gone =>
    intro hgone
    exact absurd (hreg.symm.trans hgone) (by decide)
  case group =>
    intro o ho
    obtain ⟨g, hg, -⟩ : ∃ g, v.object .netGroup = some g ∧ _ :=
      Option.map_eq_some_iff.mp ho
    obtain ⟨⟨c', hc', hreported⟩, hjoins⟩ := h.group g hg
    refine ⟨⟨{ c' with closed := true }, ?_, hreported⟩, hjoins⟩
    simp [View.closeConnection, View.shutdown, hc']
  case stream =>
    intro o ho
    obtain ⟨s, hs, -⟩ : ∃ s, v.object .netStream = some s ∧ _ :=
      Option.map_eq_some_iff.mp ho
    obtain ⟨⟨c', hc', hreported⟩, hgroup⟩ := h.stream s hs
    refine ⟨⟨{ c' with closed := true }, ?_, hreported⟩, fun hjoins => ?_⟩
    · simp [View.closeConnection, View.shutdown, hc']
    · obtain ⟨g, hg, hjoined⟩ := hgroup hjoins
      exact ⟨{ g with onStatus := false }, by simp [View.closeConnection, View.shutdown, hg],
        hjoined⟩
  case active =>
    intro hactive
    have hnot : ¬StreamState.disconnecting.Active := by decide
    exact absurd hactive hnot
  case opening =>
    intro o ho _ hopen
    obtain ⟨c', -, rfl⟩ := Option.map_eq_some_iff.mp ho
    cases hopen
  case joining =>
    intro o ho hon
    obtain ⟨g, -, rfl⟩ := Option.map_eq_some_iff.mp ho
    cases hon
  case pending =>
    intro o ho hon
    obtain ⟨s, -, rfl⟩ := Option.map_eq_some_iff.mp ho
    cases hon
  case relayed =>
    intro hre
    cases hre
  case requested => exact h.requested.congr rfl

/-- A context that is gone is consistent when nothing waits at it. -/
theorem consistent_unregister (h : Requested engine v.context)
    (hwaits : v.context.republishInfo = none) (hbound : v.bound = false)
    (hstate : v.context.state.number ∈ [5, 7, 8]) : Consistent engine v.unregister := by
  constructor
  case gone => exact fun _ => ⟨hbound, hwaits, hstate⟩
  case active =>
    intro hactive
    have hstates : ∀ s : StreamState, s.number ∈ [5, 7, 8] → ¬s.Active := by
      intro s
      cases s <;> decide
    exact absurd hactive (hstates _ hstate)
  case relayed =>
    intro hre
    have hre' : v.context.state = .republishing := hre
    rw [hre'] at hstate
    exact absurd hstate (by decide)
  case requested => exact h.congr rfl
  all_goals simp [View.unregister]

/-- The parameters of a request that has passed the check are valid. -/
theorem requested_newContext {params : Params}
    (hvalid : validateStreamParams engine.toNumber params = true)
    (hown : engine.inherited stream.name = false) :
    Requested engine (newContext client stream params) := by
  obtain ⟨type, groupspec, hv⟩ := validateStreamParams_iff.mp hvalid
  refine ⟨fun _ _ hq => ?_, ⟨?_, ?_, fun hp2p => ?_⟩, hown⟩
  · cases hq
  · have htype : eventType engine.toNumber (newContext client stream params).type = some type :=
      hv.event
    simp [htype]
  · have hgroup : (newContext client stream params).groupspec =
        (getParam params groupspecParam).getD [] := rfl
    rw [hgroup, hv.group.1]
    exact hv.group.2
  · have htype : eventType engine.toNumber (newContext client stream params).type = some type :=
      hv.event
    have haddress : (newContext client stream params).address =
        if truthy params addressParam then getParam params addressParam else none := rfl
    have htruthy := hv.address (fun he => hp2p (by rw [htype, he]))
    obtain ⟨value, hvalue, -⟩ := truthy_iff.mp htruthy
    rw [haddress, if_pos htruthy, hvalue]
    simp

/-- A context whose connection is being opened is consistent. -/
theorem consistent_open {params : Params} (i t : ℕ)
    (hvalid : validateStreamParams engine.toNumber params = true)
    (hown : engine.inherited stream.name = false) :
    Consistent engine
      { context := { newContext client stream params with
          netConnection := some i, state := .connecting }
        registered := true
        bound := true
        object := Function.update (fun _ => none) .netConnection
          (some (newConnection client t)) } := by
  constructor
  case connection => exact fun _ => ⟨newConnection client t, by simp⟩
  case listening =>
    intro o ho
    have hnew : some (newConnection client t) = some o := by simpa using ho
    rw [← Option.some.inj hnew]
    rfl
  case active => exact fun _ => ⟨rfl, by simp⟩
  case opening => exact fun _ _ _ _ => rfl
  case requested => exact (requested_newContext hvalid hown).congr rfl
  all_goals simp

/-- Disconnecting a client concerns no context. -/
theorem Invariant.disconnect (h : Invariant engine app) (client : Client) :
    Keeps engine app { app with disconnected := client :: app.disconnected } :=
  ⟨⟨⟨h.wellFormed.matched, h.wellFormed.fresh, h.wellFormed.held, h.wellFormed.registered,
    h.wellFormed.bound, h.wellFormed.timers, h.wellFormed.first⟩, h.consistent⟩, rfl, le_rfl⟩

/-- A request to publish that waits leaves a consistent context. -/
theorem Consistent.queue (h : Consistent engine v) (hreg : v.registered = true)
    (hmay : v.context.MayQueue engine client stream) :
    Consistent engine
      { v with context := { v.context with republishInfo := some (client, stream) } } := by
  refine ⟨h.connection, h.listening, fun hgone => absurd (hreg.symm.trans hgone) (by decide),
    h.group, h.stream,
    h.active, h.opening, h.joining, h.pending, h.relayed, h.requested.requeue _ ?_⟩
  intro client' stream' hq
  obtain ⟨rfl, rfl⟩ := Prod.mk.inj (Option.some.inj hq)
  exact hmay

/-- A publish request keeps the invariant, unless its name is inherited. -/
theorem keeps_onPublish (h : Invariant engine app) (client : Client) (stream : SourceStream)
    (hown : validateStreamParams engine.toNumber (parseQueryString stream.publishQueryString) =
      true → engine.inherited stream.name = false) :
    Keeps engine app (onPublish engine app client stream) := by
  rw [onPublish]
  cases hvalid : validateStreamParams engine.toNumber
      (parseQueryString stream.publishQueryString) with
  | false => exact h.disconnect client
  | true =>
    rw [if_neg (by decide)]
    cases hbound : app.streamTable stream.name with
    | some tag =>
      obtain ⟨hreg, hname, -⟩ := h.wellFormed.bound stream.name tag hbound
      have htag := h.wellFormed.registered tag hreg
      dsimp only
      split_ifs with hother
      · exact h.disconnect client
      · have hsame : (app.contexts tag).SameClient client := by simpa using hother
        exact (becomes_modify h.wellFormed tag
          (fun c => { c with republishInfo := some (client, stream) })
          (by funext k; cases k <;> rfl) rfl).keeps h
            ((h.consistent tag htag).queue hreg ⟨hname.symm, hsame, hvalid⟩)
    | none =>
      dsimp only
      rw [if_neg (by simp [hown hvalid])]
      exact (starts_open h.wellFormed client stream _ hbound (hown hvalid)).keeps h
        (consistent_open _ _ hvalid (hown hvalid))

/-- The last part of destroyStreamContext keeps the invariant. It may find the
context in any of the last states, whatever its objects have reported. -/
theorem Becomes.keeps_finish (h : Invariant engine app) (hb : Becomes engine app t v app')
    (hrequested : Requested engine v.context) (hstate : v.context.state.number ∈ [5, 7, 8]) :
    Keeps engine app (destroyStreamContext engine app' t) := by
  have hshut := becomes_shutdown hb.wellFormed t
  rw [hb.view] at hshut
  have hgone := (hb.trans hshut).unregister rfl
  have hdestroy : destroyStreamContext engine app' t =
      republish engine (unregisterStreamContext (clearShutdown (unbind app' t) t) t) t := by
    have hcontext : ((clearShutdown (unbind app' t) t).contexts t).state = v.context.state := by
      rw [hshut.context]
      rfl
    rw [destroyStreamContext, hcontext]
    revert hstate
    cases v.context.state <;> simp [StreamState.number]
  rw [hdestroy, republish, hgone.context]
  cases hq : v.context.republishInfo with
  | none =>
    have hwaits : v.shutdown.unregister.context.republishInfo = none := hq
    rw [hwaits]
    exact hgone.keeps h (consistent_unregister (hrequested.congr rfl) hq rfl hstate)
  | some request =>
    obtain ⟨client, stream⟩ := request
    have hwaits : v.shutdown.unregister.context.republishInfo = some (client, stream) := hq
    rw [hwaits]
    have hmay := hrequested.queued client stream hq
    have hshutdown : Requested engine v.shutdown.context := hrequested.congr rfl
    have hcleared : Requested engine { v.shutdown.context with republishInfo := none } :=
      hshutdown.requeue none fun _ _ hnone => nomatch hnone
    have hclear := (hgone.modify (fun c => { c with republishInfo := none })
      (by funext k; cases k <;> rfl) rfl).keeps h
        (consistent_unregister (v := { v.shutdown with
          context := { v.shutdown.context with republishInfo := none } }) hcleared rfl rfl hstate)
    refine hclear.trans (keeps_onPublish hclear.invariant client stream fun _ => ?_)
    rw [hmay.name]
    exact hrequested.own

/-- destroyStreamContext keeps the invariant. -/
theorem keeps_destroyStreamContext (h : Invariant engine app) (ht : app.Given t) :
    Keeps engine app (destroyStreamContext engine app t) := by
  have hv := h.consistent t ht
  have hshut := becomes_shutdown h.wellFormed t
  have hstate : ((clearShutdown (unbind app t) t).contexts t).state =
      (app.view t).context.state := by
    rw [hshut.context]
    rfl
  have hclose : (app.view t).context.state.number ∉ [5, 7, 8] →
      Keeps engine app (closeConnection (clearShutdown (unbind app t) t) t) := by
    intro hnot
    have hreg := hv.registered hnot
    obtain ⟨o, ho⟩ := hv.connection hreg
    exact (hshut.closeConnection ho).keeps h (hv.closeConnection hreg)
  have hfinish : (app.view t).context.state.number ∈ [5, 7, 8] →
      Keeps engine app (destroyStreamContext engine app t) :=
    (Becomes.refl h.wellFormed t).keeps_finish h hv.requested
  cases hs : (app.view t).context.state with
  | init =>
    have hactive : (app.view t).context.state.Active := by
      rw [hs]
      decide
    exact absurd hs (hv.active hactive).2
  | republishing =>
    obtain ⟨o, ho, -⟩ := hv.relayed hs
    rw [destroyStreamContext, hstate, hs]
    exact (hshut.stopPublishing ho).keeps h (hv.stopPublishing hs)
  | connecting | connected | publishPending | unpublished =>
    rw [destroyStreamContext, hstate, hs]
    exact hclose (by rw [hs]; decide)
  | unpublishing | disconnecting | disconnected => exact hfinish (by rw [hs]; decide)

/-- Assigning to an object leaves a consistent context when no handler is
installed, no connection opened again and nothing that was reported lost. -/
theorem Consistent.assign (h : Consistent engine v) (ho : v.object k = some o) (o' : NetObject)
    (honStatus : o'.onStatus = o.onStatus)
    (hclosed : o'.closed = false → o.closed = false) (hreported : o.reported ⊆ o'.reported) :
    Consistent engine { v with object := Function.update v.object k (some o') } := by
  have hold : ∀ l p, Function.update v.object k (some o') l = some p →
      ∃ q, v.object l = some q ∧ p.onStatus = q.onStatus ∧
        (p.closed = false → q.closed = false) ∧ q.reported ⊆ p.reported := by
    intro l p hp
    by_cases hl : l = k
    · subst hl
      rw [Function.update_self] at hp
      obtain rfl := Option.some.inj hp
      exact ⟨o, ho, honStatus, hclosed, hreported⟩
    · rw [Function.update_of_ne hl] at hp
      exact ⟨p, hp, rfl, id, List.Subset.refl _⟩
  have hnew : ∀ l code, v.HasReported l code →
      View.HasReported { v with object := Function.update v.object k (some o') } l code := by
    rintro l code ⟨p, hp, hcode⟩
    by_cases hl : l = k
    · subst hl
      obtain rfl := Option.some.inj (ho.symm.trans hp)
      exact ⟨o', Function.update_self .., hreported hcode⟩
    · exact ⟨p, by rw [← hp]; exact Function.update_of_ne hl .., hcode⟩
  constructor
  case connection =>
    intro hreg
    by_cases hk : k = .netConnection
    · subst hk
      exact ⟨o', by simp⟩
    · obtain ⟨p, hp⟩ := h.connection hreg
      exact ⟨p, by rw [← hp]; exact Function.update_of_ne (Ne.symm hk) ..⟩
  case listening =>
    intro p hp
    obtain ⟨q, hq, hon, -⟩ := hold _ p hp
    rw [hon]
    exact h.listening q hq
  case gone => exact h.gone
  case group =>
    intro p hp
    obtain ⟨q, hq, -⟩ := hold _ p hp
    exact ⟨hnew _ _ (h.group q hq).1, (h.group q hq).2⟩
  case stream =>
    intro p hp
    obtain ⟨q, hq, -⟩ := hold _ p hp
    exact ⟨hnew _ _ (h.stream q hq).1, fun hjoins => hnew _ _ ((h.stream q hq).2 hjoins)⟩
  case active => exact h.active
  case opening =>
    intro p hp hnot hopen
    obtain ⟨q, hq, -, hqopen, hsub⟩ := hold _ p hp
    exact h.opening q hq (fun hmem => hnot (hsub hmem)) (hqopen hopen)
  case joining =>
    intro p hp hon hnot
    obtain ⟨q, hq, hqon, -, hsub⟩ := hold _ p hp
    exact h.joining q hq (hqon ▸ hon) fun hmem => hnot (hsub hmem)
  case pending =>
    intro p hp hon hnot
    obtain ⟨q, hq, hqon, -, hsub⟩ := hold _ p hp
    exact h.pending q hq (hqon ▸ hon) fun hmem => hnot (hsub hmem)
  case relayed => exact fun hre => hnew _ _ (h.relayed hre)
  case requested => exact h.requested

/-- Once there is a stream, connection and group are settled, and the state
of a registered context may change to any state that its binding allows. -/
theorem Consistent.settle (h : Consistent engine v) (ho : v.object .netStream = some o)
    (hreg : v.registered = true) (s : StreamState)
    (hactive : s.Active → v.bound = true ∧ s ≠ .init)
    (hrelayed : s = .republishing → v.HasReported .netStream .publishStart) :
    Consistent engine { v with context := { v.context with state := s } } := by
  obtain ⟨⟨c, hc, hconnected⟩, hgroup⟩ := h.stream o ho
  refine ⟨h.connection, h.listening, fun hgone => absurd (hreg.symm.trans hgone) (by decide),
    h.group, h.stream,
    hactive, ?_, ?_, h.pending, hrelayed, h.requested.congr rfl⟩
  · intro p hp hnot
    obtain rfl := Option.some.inj (hc.symm.trans hp)
    exact absurd hconnected hnot
  · intro p hp _ hnot
    obtain ⟨g, hg, hjoined⟩ := hgroup (h.group p hp).2
    obtain rfl := Option.some.inj (hg.symm.trans hp)
    exact absurd hjoined hnot

/-- initMulticastNetStream keeps the invariant, for a connected context
without a stream whose connection and group are established. -/
theorem keeps_initMulticastNetStream (calls : Calls) (h : Invariant engine app)
    (hview : app.view t = v) (hreg : v.registered = true)
    (hstate : v.context.state = .connected) (hempty : v.object .netStream = none)
    (hconnected : v.HasReported .netConnection .connectSuccess)
    (hjoined : v.context.Joins engine → v.HasReported .netGroup .connectSuccess) :
    Keeps engine app (initMulticastNetStream engine calls app t) := by
  subst hview
  have htag := h.wellFormed.registered t hreg
  have hv := h.consistent t htag
  have hbound : (app.view t).bound = true := by
    refine (hv.active ?_).1
    rw [hstate]
    decide
  rw [initMulticastNetStream]
  dsimp only
  split_ifs
  · exact keeps_destroyStreamContext h htag
  · exact keeps_destroyStreamContext h htag
  · refine ((becomes_install h.wellFormed (.new .netStream []) hreg
      (Option.map_eq_none_iff.mp hempty)).modify (fun c => { c with state := .publishPending })
        (by funext k; cases k <;> rfl) rfl).keeps h ?_
    obtain ⟨c, hc, hsuccess⟩ := hconnected
    constructor
    case connection => exact fun _ => ⟨c, hc⟩
    case listening => exact hv.listening
    case gone => exact fun hgone => absurd (hreg.symm.trans hgone) (by decide)
    case group => exact hv.group
    case stream => exact fun _ _ => ⟨⟨c, hc, hsuccess⟩, hjoined⟩
    case active => exact fun _ => ⟨hbound, by simp⟩
    case opening =>
      intro p hp hnot
      have hold : (app.view t).object .netConnection = some p := hp
      obtain rfl := Option.some.inj (hc.symm.trans hold)
      exact absurd hsuccess hnot
    case joining =>
      intro p hp _ hnot
      have hold : (app.view t).object .netGroup = some p := hp
      obtain ⟨g, hg, hsuccess⟩ := hjoined (hv.group p hold).2
      obtain rfl := Option.some.inj (hg.symm.trans hold)
      exact absurd hsuccess hnot
    case pending => exact fun _ _ _ _ => hbound
    case relayed => exact fun hre => nomatch hre
    case requested => exact hv.requested.congr rfl

/-- initNetGroup keeps the invariant, for a connected context without a group
and without a stream whose connection is established. -/
theorem keeps_initNetGroup (calls : Calls) (h : Invariant engine app)
    (hview : app.view t = v) (hreg : v.registered = true)
    (hstate : v.context.state = .connected) (hgroup : v.object .netGroup = none)
    (hstream : v.object .netStream = none)
    (hconnected : v.HasReported .netConnection .connectSuccess)
    (hjoins : v.context.Joins engine) :
    Keeps engine app (initNetGroup engine calls app t) := by
  subst hview
  have htag := h.wellFormed.registered t hreg
  have hv := h.consistent t htag
  rw [initNetGroup]
  split_ifs
  · exact keeps_destroyStreamContext h htag
  · refine (becomes_install h.wellFormed (.new .netGroup []) hreg
      (Option.map_eq_none_iff.mp hgroup)).keeps h ?_
    constructor
    case connection => exact hv.connection
    case listening => exact hv.listening
    case gone => exact fun hgone => absurd (hreg.symm.trans hgone) (by decide)
    case group => exact fun _ _ => ⟨hconnected, hjoins⟩
    case stream =>
      intro p hp
      have hold : (app.view t).object .netStream = some p := hp
      rw [hstream] at hold
      cases hold
    case active => exact hv.active
    case opening => exact hv.opening
    case joining => exact fun _ _ _ _ => hstate
    case pending => exact hv.pending
    case relayed => exact hv.relayed
    case requested => exact hv.requested.congr rfl

/-- What an object reports shows in the view of its context. -/
theorem becomes_report (h : WellFormed engine app) (hi : (app.objects i).context = some t)
    (code : Code) :
    Becomes engine app t
      { app.view t with
        object := Function.update (app.view t).object (app.objects i).kind
          (some ((app.objects i).report code)) }
      (app.modifyObject i fun o => o.report code) :=
  becomes_modifyObject h hi (fun o => o.report code) hi rfl

/-- An object without a context concerns none. -/
theorem keeps_modifyObject_of_none (h : Invariant engine app)
    (hi : (app.objects i).context = none) (f : NetObject → NetObject)
    (hcontext : (f (app.objects i)).context = none) :
    Keeps engine app (app.modifyObject i f) := by
  have hall : ∀ j, ((app.modifyObject i f).objects j).context = (app.objects j).context := by
    intro j
    by_cases hj : j = i
    · subst hj
      simp [App.modifyObject, hcontext, hi]
    · simp [App.modifyObject, hj]
  have howner : (app.modifyObject i f).references = app.references := by
    refine MutualReferences.References.ext rfl ?_
    funext j
    by_cases hj : j = i
    · subst hj
      simp [App.references, hall, hi]
    · simp [App.references, App.modifyObject, hj]
  have hview : ∀ u, (app.modifyObject i f).view u = app.view u := by
    intro u
    simp only [App.view, View.mk.injEq]
    refine ⟨rfl, rfl, rfl, ?_⟩
    funext k
    cases ho : ((app.modifyObject i f).contexts u).object k with
    | none =>
      have ho' : (app.contexts u).object k = none := ho
      simp [ho']
    | some j =>
      have ho' : (app.contexts u).object k = some j := ho
      have hj : j ≠ i := by
        rintro rfl
        rw [(h.wellFormed.context_eq ho').1] at hi
        cases hi
      simp [ho', App.modifyObject, hj]
  refine ⟨⟨⟨?_, ?_, h.wellFormed.held, h.wellFormed.registered, h.wellFormed.bound,
    h.wellFormed.timers, h.wellFormed.first⟩, fun u hu => ?_⟩, rfl, le_rfl⟩
  · rw [howner]
    exact h.wellFormed.matched
  · intro j hj
    rw [hall j]
    exact h.wellFormed.fresh j hj
  · rw [hview]
    exact h.consistent u hu

/-- Before the connection is established there is no group and no stream. -/
theorem Consistent.unconnected (h : Consistent engine v)
    (ho : v.object .netConnection = some o) (hnot : .connectSuccess ∉ o.reported) :
    v.object .netGroup = none ∧ v.object .netStream = none := by
  have hunreported : ¬v.HasReported .netConnection .connectSuccess := by
    rintro ⟨p, hp, hreported⟩
    obtain rfl := Option.some.inj (ho.symm.trans hp)
    exact hnot hreported
  constructor
  · cases hg : v.object .netGroup with
    | none => rfl
    | some p => exact absurd (h.group p hg).1 hunreported
  · cases hs : v.object .netStream with
    | none => rfl
    | some p => exact absurd (h.stream p hs).1 hunreported

/-- A connection that is established leaves a connected context. -/
theorem Consistent.connect (h : Consistent engine v) (hreg : v.registered = true)
    (ho : v.object .netConnection = some o) (hnot : .connectSuccess ∉ o.reported)
    (hopen : o.closed = false) :
    Consistent engine { v with
      context := { v.context with state := .connected }
      object := Function.update v.object .netConnection (some (o.report .connectSuccess)) } := by
  have hassign := h.assign ho (o.report .connectSuccess) rfl id (List.subset_cons_self _ _)
  have hactive : v.context.state.Active := by
    rw [h.opening o ho hnot hopen]
    decide
  refine ⟨hassign.connection, hassign.listening,
    fun hgone => absurd (hreg.symm.trans hgone) (by decide), hassign.group, hassign.stream,
    fun _ => ⟨(h.active hactive).1, nofun⟩, ?_, ?_,
    hassign.pending, nofun, h.requested.congr rfl⟩
  · intro p hp hno
    have hp' : some (o.report .connectSuccess) = some p := by simpa using hp
    obtain rfl := Option.some.inj hp'
    exact absurd List.mem_cons_self hno
  · intro p hp
    have hp' : v.object .netGroup = some p := by simpa using hp
    rw [(h.unconnected ho hnot).1] at hp'
    cases hp'

/-- A connection that is established keeps the invariant. -/
theorem keeps_connectSuccess (calls : Calls) (h : Invariant engine app)
    (hi : (app.objects i).context = some t) (hkind : (app.objects i).kind = .netConnection)
    (hmay : (app.objects i).mayReport .connectSuccess = true) :
    Keeps engine app (netConnectionStatusHandler engine calls
      (app.modifyObject i fun o => o.report .connectSuccess) t .connectSuccess) := by
  have hreg := h.wellFormed.held t _ i (h.wellFormed.object_eq hi)
  have hv := h.consistent t (h.wellFormed.registered t hreg)
  have ho := h.wellFormed.view_object hi
  rw [hkind] at ho
  have hmay' : .connectSuccess ∉ (app.objects i).reported ∧ (app.objects i).closed = false := by
    simpa [NetObject.mayReport] using hmay
  obtain ⟨hgroup, hstream⟩ := hv.unconnected ho hmay'.1
  have hreport := becomes_report h.wellFormed hi .connectSuccess
  rw [hkind] at hreport
  have hset := hreport.modify (fun c => { c with state := .connected })
    (by funext k; cases k <;> rfl) rfl
  have hkeeps := hset.keeps h (hv.connect hreg ho hmay'.1 hmay'.2)
  have hconnected : View.HasReported { app.view t with
      context := { (app.view t).context with state := .connected }
      object := Function.update (app.view t).object .netConnection
        (some ((app.objects i).report .connectSuccess)) } .netConnection .connectSuccess :=
    ⟨(app.objects i).report .connectSuccess, by simp, List.mem_cons_self⟩
  have htype : (((app.modifyObject i fun o => o.report .connectSuccess).modify t
      fun c => { c with state := .connected }).contexts t).type = (app.contexts t).type := by
    simp [App.modifyObject]
  rw [netConnectionStatusHandler, htype]
  split_ifs with hjoins
  · exact hkeeps.trans (keeps_initNetGroup calls hkeeps.invariant hset.view hreg rfl
      (by simpa using hgroup) (by simpa using hstream) hconnected hjoins)
  · exact hkeeps.trans (keeps_initMulticastNetStream calls hkeeps.invariant hset.view hreg rfl
      (by simpa using hstream) hconnected fun hjoins' => absurd hjoins' hjoins)

/-- What a connection reports keeps the invariant. -/
theorem keeps_netConnectionStatusHandler (calls : Calls) (h : Invariant engine app)
    (hi : (app.objects i).context = some t) (hkind : (app.objects i).kind = .netConnection)
    (hmay : (app.objects i).mayReport code = true) :
    Keeps engine app (netConnectionStatusHandler engine calls
      (app.modifyObject i fun o => o.report code) t code) := by
  have hreg := h.wellFormed.held t _ i (h.wellFormed.object_eq hi)
  have hv := h.consistent t (h.wellFormed.registered t hreg)
  have hreport := becomes_report h.wellFormed hi code
  have hignored := hreport.keeps h (hv.assign (h.wellFormed.view_object hi)
    ((app.objects i).report code) rfl id (List.subset_cons_self _ _))
  have hlast : StreamState.disconnected.number ∈ [5, 7, 8] := by decide
  have hlost := (hreport.modify (fun c => { c with state := .disconnected })
    (by funext k; cases k <;> rfl) rfl).keeps_finish h (hv.requested.congr rfl) hlast
  cases code with
  | connectSuccess => exact keeps_connectSuccess calls h hi hkind hmay
  | connectFailed | connectRejected | connectAppShutdown | connectClosed => exact hlost
  | publishStart | unpublishSuccess | other => exact hignored

/-- What a group reports to its handler keeps the invariant. -/
theorem keeps_netGroupStatusHandler (calls : Calls) (h : Invariant engine app)
    (hi : (app.objects i).context = some t) (hkind : (app.objects i).kind = .netGroup)
    (hon : (app.objects i).onStatus = true) (hmay : (app.objects i).mayReport code = true) :
    Keeps engine app (netGroupStatusHandler engine calls
      (app.modifyObject i fun o => o.report code) t code) := by
  have hreg := h.wellFormed.held t _ i (h.wellFormed.object_eq hi)
  have htag := h.wellFormed.registered t hreg
  have hv := h.consistent t htag
  have ho := h.wellFormed.view_object hi
  have hassign := hv.assign ho ((app.objects i).report code) rfl id (List.subset_cons_self _ _)
  have hreport := becomes_report h.wellFormed hi code
  have hnoted := hreport.keeps h hassign
  have hdestroyed := hnoted.trans (keeps_destroyStreamContext hnoted.invariant htag)
  rw [hkind] at ho hreport hassign
  cases code with
  | connectSuccess =>
    have hmay' : .connectSuccess ∉ (app.objects i).reported := by
      have hboth : .connectSuccess ∉ (app.objects i).reported ∧ (app.objects i).closed = false := by
        simpa [NetObject.mayReport] using hmay
      exact hboth.1
    have hstream : (app.view t).object .netStream = none := by
      cases hs : (app.view t).object .netStream with
      | none => rfl
      | some p =>
        obtain ⟨g, hg, hjoined⟩ := (hv.stream p hs).2 (hv.group _ ho).2
        obtain rfl := Option.some.inj (ho.symm.trans hg)
        exact absurd hjoined hmay'
    have hconnected := (hassign.group ((app.objects i).report .connectSuccess) (by simp)).1
    exact hnoted.trans (keeps_initMulticastNetStream calls hnoted.invariant hreport.view hreg
      (hv.joining _ ho hon hmay') (by simpa using hstream) hconnected fun _ =>
        ⟨(app.objects i).report .connectSuccess, by simp, List.mem_cons_self⟩)
  | connectFailed | connectRejected => exact hdestroyed
  | connectAppShutdown | connectClosed | publishStart | unpublishSuccess | other => exact hnoted

/-- A timer for a delayed shutdown concerns no context but its own. -/
theorem Becomes.setInterval (hb : Becomes engine app t v app') (ht : app.Given t) :
    Becomes engine app t
      { v with context := { v.context with shutdownID := some app'.nextInterval } }
      { app'.modify t fun c => { c with shutdownID := some app'.nextInterval } with
        intervals := Function.update app'.intervals app'.nextInterval (some t)
        nextInterval := app'.nextInterval + 1 } := by
  have hm := hb.modify (fun c => { c with shutdownID := some app'.nextInterval })
    (by funext k; cases k <;> rfl) rfl
  refine ⟨⟨hm.wellFormed.matched, hm.wellFormed.fresh, hm.wellFormed.held,
    hm.wellFormed.registered, hm.wellFormed.bound, fun id u hu => ?_, hm.wellFormed.first⟩,
    hm.view, hm.others,
    hm.nextTag, hm.threw, hm.disconnected⟩
  by_cases hid : id = app'.nextInterval
  · have hu' : some t = some u := by simpa [hid] using hu
    obtain rfl := Option.some.inj hu'
    exact ⟨ht.1, ht.2.trans_eq hb.nextTag.symm⟩
  · refine hb.wellFormed.timers id u ?_
    simpa [hid, App.modify] using hu

/-- What a stream reports to its handler keeps the invariant. -/
theorem keeps_netStreamStatusHandler (calls : Calls) (h : Invariant engine app)
    (hi : (app.objects i).context = some t) (hkind : (app.objects i).kind = .netStream)
    (hon : (app.objects i).onStatus = true) (hmay : (app.objects i).mayReport code = true) :
    Keeps engine app (netStreamStatusHandler engine calls
      (app.modifyObject i fun o => o.report code) i t code) := by
  have hreg := h.wellFormed.held t _ i (h.wellFormed.object_eq hi)
  have htag := h.wellFormed.registered t hreg
  have hv := h.consistent t htag
  have ho := h.wellFormed.view_object hi
  have hassign := hv.assign ho ((app.objects i).report code) rfl id (List.subset_cons_self _ _)
  have hreport := becomes_report h.wellFormed hi code
  have hnoted := hreport.keeps h hassign
  rw [hkind] at ho hreport hassign
  have hreported : View.HasReported { app.view t with
      object := Function.update (app.view t).object .netStream
        (some ((app.objects i).report code)) } .netStream code :=
    ⟨(app.objects i).report code, by simp, List.mem_cons_self⟩
  have hbelongs : ((app.modifyObject i fun o => o.report code).objects i).context = some t := by
    simpa [App.modifyObject, NetObject.report] using hi
  obtain ⟨s, hs, -⟩ := id hreported
  cases code with
  | connectSuccess =>
    rw [netStreamStatusHandler]
    split_ifs
    · exact hnoted.trans (keeps_destroyStreamContext hnoted.invariant htag)
    · have hview := hnoted.invariant.wellFormed.view_object hbelongs
      exact hnoted.trans ((becomes_modifyObject hnoted.invariant.wellFormed hbelongs _ hbelongs
        rfl).keeps hnoted.invariant ((hnoted.invariant.consistent t htag).assign hview _ rfl id
          (List.Subset.refl _)))
  | publishStart =>
    have hmay' : .publishStart ∉ (app.objects i).reported := by
      simpa [NetObject.mayReport] using hmay
    exact (hreport.modify (fun c => { c with state := .republishing })
      (by funext k; cases k <;> rfl) rfl).keeps h
        (hassign.settle hs hreg .republishing
          (fun _ => ⟨hv.pending _ ho hon hmay', fun hinit => by cases hinit⟩) fun _ => hreported)
  | unpublishSuccess =>
    have hset := hreport.modify (fun c => { c with state := .unpublished })
      (by funext k; cases k <;> rfl) rfl
    have hunpublished := hassign.settle hs hreg .unpublished
      (fun hactive => absurd hactive (by decide)) fun hrepublishing => by cases hrepublishing
    have hkeeps := hset.keeps h hunpublished
    have hstream : (app.contexts t).mcastNetStream ≠ none := by
      have hobject := h.wellFormed.object_eq hi
      rw [hkind] at hobject
      have hs : (app.contexts t).mcastNetStream = some i := hobject
      simp [hs]
    rw [netStreamStatusHandler]
    dsimp only
    rw [if_neg (by simpa [App.modifyObject] using hstream)]
    split_ifs
    · exact (hset.setInterval htag).keeps h ⟨hunpublished.connection, hunpublished.listening,
        hunpublished.gone, hunpublished.group, hunpublished.stream, hunpublished.active,
        hunpublished.opening,
        hunpublished.joining, hunpublished.pending, hunpublished.relayed,
        hunpublished.requested.congr rfl⟩
    · exact hkeeps.trans (keeps_destroyStreamContext hkeeps.invariant htag)
  | connectFailed | connectRejected | connectAppShutdown | connectClosed | other => exact hnoted

end VideooServer.MulticastRelay

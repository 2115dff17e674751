import VideooServer.MulticastRuns

/-!
# Handing a name over

What an event can do to the requests of the relay: a handler works on one
context and may take up the request that waits there. A waiting request is
not lost, a name passes to another context only by the request that waited
for it, and a context whose connection closes is released for good.
-/

namespace VideooServer.MulticastRelay

open ByteText StepRuns MulticastQuery

/-- A change that may unbind and unregister one context, and leaves all
requests as they are. -/
structure Quiet (t : ℕ) (app app' : App) : Prop where
  /-- No tag is given out. -/
  nextTag : app'.nextTag = app.nextTag
  /-- No client is disconnected. -/
  disconnected : app'.disconnected = app.disconnected
  /-- The requests are kept. -/
  request : ∀ u, (app'.contexts u).request = (app.contexts u).request
  /-- At most the name of the context is unbound. -/
  names : ∀ n, app'.streamTable n = app.streamTable n ∨
    app.streamTable n = some t ∧ app'.streamTable n = none
  /-- No context is registered. -/
  registered : ∀ u, app'.tagTable u = true → app.tagTable u = true

/-- What a request to publish comes to. -/
inductive Published (engine : Engine) (app : App) (client : Client) (stream : SourceStream) :
    App → Prop
  /-- The client is disconnected, for its parameters or for another client. -/
  | rejected
      (h : validateStreamParams engine.toNumber (parseQueryString stream.publishQueryString) =
          false ∨
        ∃ t, app.streamTable stream.name = some t ∧ ¬(app.contexts t).SameClient client) :
      Published engine app client stream { app with disconnected := client :: app.disconnected }
  /-- The request waits at the context that has the name. -/
  | queued (t : ℕ) (hbound : app.streamTable stream.name = some t)
      (hsame : (app.contexts t).SameClient client) :
      Published engine app client stream
        (app.modify t fun c => { c with republishInfo := some (client, stream) })
  /-- The name is found in every object. -/
  | missing (hown : engine.inherited stream.name = true) :
      Published engine app client stream app.throw
  /-- A context is set up. -/
  | opened (hname : app.streamTable stream.name = none) :
      Published engine app client stream
        (openMulticastConnection
          (registerStream app client stream (parseQueryString stream.publishQueryString))
          app.nextTag)

/-- What an event comes to. -/
inductive Occurs (engine : Engine) (app : App) : App → Prop
  /-- Some client publishes. -/
  | publish (client : Client) (stream : SourceStream) (app' : App)
      (h : Published engine app client stream app') : Occurs engine app app'
  /-- A handler works on one context. -/
  | quiet (t : ℕ) (app' : App) (h : Quiet t app app') : Occurs engine app app'
  /-- It then takes up what waits there. -/
  | republish (t : ℕ) (mid : App) (h : Quiet t app mid) :
      Occurs engine app (republish engine mid t)

variable {engine : Engine} {calls : Calls} {app app' app'' : App} {e : Event} {es es' : List Event}
  {t u i : ℕ} {client : Client} {stream : SourceStream} {code : Code} {n : Bytes}

theorem Quiet.refl (t : ℕ) (app : App) : Quiet t app app :=
  ⟨rfl, rfl, fun _ => rfl, fun _ => Or.inl rfl, fun _ => id⟩

/-- Quiet changes of one context compose. -/
theorem Quiet.trans (h : Quiet t app app') (h' : Quiet t app' app'') : Quiet t app app'' where
  nextTag := h'.nextTag.trans h.nextTag
  disconnected := h'.disconnected.trans h.disconnected
  request u := (h'.request u).trans (h.request u)
  names n := by
    obtain hn | ⟨hn, hnone⟩ := h.names n
    · rw [← hn]
      exact h'.names n
    · obtain hn' | ⟨hn', -⟩ := h'.names n
      · exact Or.inr ⟨hn, hn'.trans hnone⟩
      · rw [hnone] at hn'
        cases hn'
  registered u hu := h.registered u (h'.registered u hu)

/-- Assigning anything but the request to a context. -/
theorem quiet_modify (app : App) (t u : ℕ) (f : StreamContext → StreamContext)
    (hf : ∀ c, (f c).request = c.request) : Quiet t app (app.modify u f) := by
  refine ⟨rfl, rfl, fun w => ?_, fun _ => Or.inl rfl, fun _ => id⟩
  by_cases hw : w = u
  · rw [hw, App.modify_self, hf]
  · rw [App.modify_ne app f hw]

/-- Assigning to an object is quiet. -/
theorem quiet_modifyObject (app : App) (t i : ℕ) (f : NetObject → NetObject) :
    Quiet t app (app.modifyObject i f) :=
  ⟨rfl, rfl, fun _ => rfl, fun _ => Or.inl rfl, fun _ => id⟩

/-- So is assigning to an object that may be missing. -/
theorem quiet_modifyObject? (app : App) (t : ℕ) (i : Option ℕ) (f : NetObject → NetObject) :
    Quiet t app (app.modifyObject? i f) := by
  cases i with
  | none => exact .refl t app
  | some i => exact quiet_modifyObject app t i f

/-- So is throwing. -/
theorem quiet_throw (app : App) (t : ℕ) : Quiet t app app.throw :=
  ⟨rfl, rfl, fun _ => rfl, fun _ => Or.inl rfl, fun _ => id⟩

/-- Setting an object keeps the request. -/
theorem request_setObject (c : StreamContext) (k : Kind) (i : Option ℕ) :
    (c.setObject k i).request = c.request := by
  cases k <;> rfl

/-- Wiring up an object is quiet. -/
theorem quiet_install (app : App) (t : ℕ) (o : NetObject) : Quiet t app (app.install t o) := by
  have hmodify := quiet_modify app t t (fun c => c.setObject o.kind (some app.nextObject))
    fun c => request_setObject c _ _
  exact ⟨rfl, rfl, hmodify.request, fun _ => Or.inl rfl, fun _ => id⟩

/-- Unbinding a context is quiet. -/
theorem quiet_unbind (app : App) (t : ℕ) : Quiet t app (unbind app t) := by
  rw [unbind]
  split_ifs with hbound
  · refine ⟨rfl, rfl, fun _ => rfl, fun n => ?_, fun _ => id⟩
    by_cases hn : n = (app.contexts t).streamName
    · rw [hn]
      exact Or.inr ⟨hbound, Function.update_self ..⟩
    · exact Or.inl (Function.update_of_ne hn ..)
  · exact .refl t app

/-- Ending a delayed shutdown is quiet. -/
theorem quiet_clearShutdown (app : App) (t : ℕ) : Quiet t app (clearShutdown app t) := by
  rw [clearShutdown]
  cases (app.contexts t).shutdownID with
  | none => exact .refl t app
  | some timer =>
    have hmodify := quiet_modify app t t (fun c => { c with shutdownID := none }) fun _ => rfl
    exact ⟨rfl, rfl, hmodify.request, fun _ => Or.inl rfl, fun _ => id⟩

/-- So are both together. -/
theorem quiet_shutdown (app : App) (t : ℕ) : Quiet t app (clearShutdown (unbind app t) t) :=
  (quiet_unbind app t).trans (quiet_clearShutdown _ t)

/-- Stopping the relay is quiet. -/
theorem quiet_stopPublishing (app : App) (t : ℕ) : Quiet t app (stopPublishing app t) := by
  rw [stopPublishing]
  cases (app.contexts t).mcastNetStream with
  | none => exact quiet_throw app t
  | some i => exact (quiet_modifyObject app t i _).trans (quiet_modify _ t t _ fun _ => rfl)

/-- Closing the connection is quiet. -/
theorem quiet_closeConnection (app : App) (t : ℕ) : Quiet t app (closeConnection app t) := by
  have hdetach := ((quiet_modifyObject? app t (app.contexts t).netGroup fun o =>
    { o with onStatus := false }).trans (quiet_modifyObject? _ t (app.contexts t).mcastNetStream
      fun o => { o with attached := false, stream := none, onStatus := false })).trans
        (quiet_modify _ t t (fun c =>
          { c with sourceStream := if c.mcastNetStream.isSome then none else c.sourceStream })
            fun _ => rfl)
  rw [closeConnection]
  cases (app.contexts t).netConnection with
  | none => exact hdetach.trans (quiet_throw _ t)
  | some i =>
    exact hdetach.trans
      ((quiet_modifyObject _ t i _).trans (quiet_modify _ t t _ fun _ => rfl))

/-- Unregistering a context is quiet. -/
theorem quiet_unregister (app : App) (t : ℕ) : Quiet t app (unregisterStreamContext app t) := by
  have hdrop := (((quiet_modifyObject? app t (app.contexts t).netConnection
    NetObject.release).trans (quiet_modifyObject? _ t (app.contexts t).mcastNetStream
      fun o => { o.release with stream := none })).trans
        (quiet_modifyObject? _ t (app.contexts t).netGroup NetObject.release)).trans
          (quiet_modify _ t t (fun c => { c with
            netConnection := none, mcastNetStream := none, netGroup := none, sourceStream := none })
              fun _ => rfl)
  refine ⟨hdrop.nextTag, hdrop.disconnected, hdrop.request, hdrop.names, fun u hu => ?_⟩
  rw [unregister_tagTable] at hu
  by_cases hut : u = t
  · rw [hut, Function.update_self] at hu
    cases hu
  · rwa [Function.update_of_ne hut] at hu

/-- Destroying a context, after anything that concerns only this context. -/
theorem Quiet.destroy (engine : Engine) (h : Quiet t app app') :
    Occurs engine app (destroyStreamContext engine app' t) := by
  have hshut := h.trans (quiet_shutdown app' t)
  rw [destroyStreamContext]
  cases ((clearShutdown (unbind app' t) t).contexts t).state with
  | republishing => exact .quiet t _ (hshut.trans (quiet_stopPublishing _ t))
  | connecting | connected | publishPending | unpublished =>
    exact .quiet t _ (hshut.trans (quiet_closeConnection _ t))
  | init | unpublishing | disconnecting | disconnected =>
    exact .republish t _ (hshut.trans (quiet_unregister _ t))

/-- Setting up the stream, after anything quiet. -/
theorem Quiet.initMulticastNetStream (engine : Engine) (calls : Calls) (h : Quiet t app app') :
    Occurs engine app (initMulticastNetStream engine calls app' t) := by
  rw [MulticastRelay.initMulticastNetStream]
  dsimp only
  split_ifs
  · exact h.destroy engine
  · exact h.destroy engine
  · exact .quiet t _ ((h.trans (quiet_install app' t _)).trans (quiet_modify _ t t _ fun _ => rfl))

/-- Setting up the group, after anything quiet. -/
theorem Quiet.initNetGroup (engine : Engine) (calls : Calls) (h : Quiet t app app') :
    Occurs engine app (initNetGroup engine calls app' t) := by
  rw [MulticastRelay.initNetGroup]
  split_ifs
  · exact h.destroy engine
  · exact .quiet t _ (h.trans (quiet_install app' t _))

/-- The handler of connections, after anything quiet. -/
theorem Quiet.netConnectionStatusHandler (engine : Engine) (calls : Calls) (h : Quiet t app app')
    (code : Code) : Occurs engine app (netConnectionStatusHandler engine calls app' t code) := by
  have hstate : ∀ s, Quiet t app (app'.modify t fun c => { c with state := s }) := fun s =>
    h.trans (quiet_modify app' t t _ fun _ => rfl)
  cases code with
  | connectSuccess =>
    rw [MulticastRelay.netConnectionStatusHandler]
    split_ifs
    · exact (hstate _).initNetGroup engine calls
    · exact (hstate _).initMulticastNetStream engine calls
  | connectFailed | connectRejected | connectAppShutdown | connectClosed =>
    exact (hstate _).destroy engine
  | publishStart | unpublishSuccess | other => exact .quiet t _ h

/-- The handler of groups, after anything quiet. -/
theorem Quiet.netGroupStatusHandler (engine : Engine) (calls : Calls) (h : Quiet t app app')
    (code : Code) : Occurs engine app (netGroupStatusHandler engine calls app' t code) := by
  cases code with
  | connectSuccess => exact h.initMulticastNetStream engine calls
  | connectFailed | connectRejected => exact h.destroy engine
  | connectAppShutdown | connectClosed | publishStart | unpublishSuccess | other =>
    exact .quiet t _ h

/-- The handler of streams, after anything quiet. -/
theorem Quiet.netStreamStatusHandler (engine : Engine) (calls : Calls) (i : ℕ)
    (h : Quiet t app app') (code : Code) :
    Occurs engine app (netStreamStatusHandler engine calls app' i t code) := by
  cases code with
  | connectSuccess =>
    rw [MulticastRelay.netStreamStatusHandler]
    split_ifs
    · exact h.destroy engine
    · exact .quiet t _ (h.trans (quiet_modifyObject app' t i _))
  | publishStart =>
    exact .quiet t _ (h.trans
      (quiet_modify app' t t (fun c => { c with state := .republishing }) fun _ => rfl))
  | unpublishSuccess =>
    have hstate := h.trans
      (quiet_modify app' t t (fun c => { c with state := .unpublished }) fun _ => rfl)
    rw [MulticastRelay.netStreamStatusHandler]
    dsimp only
    split_ifs
    · exact .quiet t _ (hstate.trans (quiet_throw _ t))
    · have hid := hstate.trans (quiet_modify _ t t
        (fun c => { c with shutdownID := some app'.nextInterval }) fun _ => rfl)
      exact .quiet t _ ⟨hid.nextTag, hid.disconnected, hid.request, hid.names, hid.registered⟩
    · exact hstate.destroy engine
  | connectFailed | connectRejected | connectAppShutdown | connectClosed | other =>
    exact .quiet t _ h

/-- What a status of an object comes to. -/
theorem occurs_onStatus (engine : Engine) (calls : Calls) (app : App) (i : ℕ) (code : Code) :
    Occurs engine app (onStatus engine calls app i code) := by
  have hnoted : ∀ t, Quiet t app (app.modifyObject i fun o => o.report code) := fun t =>
    quiet_modifyObject app t i _
  rw [onStatus]
  split
  · split
    · exact (hnoted _).netConnectionStatusHandler engine calls code
    · exact (hnoted _).netGroupStatusHandler engine calls code
    · exact (hnoted _).netStreamStatusHandler engine calls i code
  · exact .quiet 0 _ (hnoted 0)

/-- What a request to publish comes to. -/
theorem published_onPublish (engine : Engine) (app : App) (client : Client)
    (stream : SourceStream) :
    Published engine app client stream (onPublish engine app client stream) := by
  rw [onPublish]
  cases hvalid : validateStreamParams engine.toNumber
      (parseQueryString stream.publishQueryString) with
  | false => exact .rejected (Or.inl hvalid)
  | true =>
    rw [if_neg (by decide)]
    cases hbound : app.streamTable stream.name with
    | some t =>
      dsimp only
      split_ifs with hother
      · exact .rejected (Or.inr ⟨t, hbound, by simpa using hother⟩)
      · exact .queued t hbound (by simpa using hother)
    | none =>
      dsimp only
      split_ifs with hown
      · exact .missing hown
      · exact .opened hbound

/-- Every event is a request to publish, or works on one context. -/
theorem occurs_of_relayStep (hs : relayStep engine app e = some app') :
    Occurs engine app app' := by
  cases e with
  | publish client stream =>
    obtain rfl := Option.some.inj hs
    exact .publish client stream _ (published_onPublish engine app client stream)
  | unpublish client stream =>
    obtain rfl := Option.some.inj hs
    rw [onUnpublish]
    cases app.streamTable stream.name with
    | none => exact .quiet 0 _ (.refl 0 app)
    | some t =>
      dsimp only
      split_ifs
      · exact (Quiet.refl t app).destroy engine
      · exact .quiet t _ (.refl t app)
  | releaseStream client streamName =>
    obtain rfl := Option.some.inj hs
    rw [releaseStream]
    cases app.streamTable streamName with
    | none =>
      dsimp only
      split_ifs
      · exact .quiet 0 _ (quiet_throw app 0)
      · exact .quiet 0 _ (.refl 0 app)
    | some t =>
      dsimp only
      split_ifs
      · exact (Quiet.refl t app).destroy engine
      · exact .quiet t _ (.refl t app)
  | status i code calls =>
    rw [relayStep] at hs
    split_ifs at hs
    obtain rfl := Option.some.inj hs
    exact occurs_onStatus engine calls app i code
  | interval id =>
    obtain ⟨t, -, rfl⟩ := Option.map_eq_some_iff.mp hs
    exact (Quiet.refl t app).destroy engine

/-- The context that is set up has the next tag, and the others are kept. -/
theorem open_contexts (app : App) (client : Client) (stream : SourceStream) (params : Params) :
    ((openMulticastConnection (registerStream app client stream params)
        app.nextTag).contexts app.nextTag).client = client ∧
      ((openMulticastConnection (registerStream app client stream params)
        app.nextTag).contexts app.nextTag).sourceStream = some stream ∧
      ∀ t, t ≠ app.nextTag →
        (openMulticastConnection (registerStream app client stream params)
          app.nextTag).contexts t = app.contexts t := by
  refine ⟨?_, ?_, fun t ht => ?_⟩
  · simp [openMulticastConnection, App.install, App.modify, registerStream, NetObject.new,
      StreamContext.setObject]
  · simp [openMulticastConnection, App.install, App.modify, registerStream, NetObject.new,
      StreamContext.setObject]
  · simp [openMulticastConnection, App.install, App.modify, registerStream, ht]

/-- A request to publish changes no name but its own, which was free. -/
theorem Published.names (h : Published engine app client stream app') (n : Bytes) :
    app'.streamTable n = app.streamTable n ∨
      n = stream.name ∧ app.streamTable n = none ∧ app'.streamTable n = some app.nextTag ∧
        (app'.contexts app.nextTag).client = client ∧
        (app'.contexts app.nextTag).sourceStream = some stream := by
  cases h with
  | rejected | queued | missing => exact Or.inl rfl
  | opened hname =>
    obtain ⟨hclient, hsource, -⟩ :=
      open_contexts app client stream (parseQueryString stream.publishQueryString)
    by_cases hn : n = stream.name
    · rw [hn]
      exact Or.inr ⟨rfl, hname, Function.update_self .., hclient, hsource⟩
    · exact Or.inl (Function.update_of_ne hn ..)

/-- It registers no context but its own. -/
theorem Published.registered (h : Published engine app client stream app')
    (ht : t < app.nextTag) (hreg : app'.tagTable t = true) : app.tagTable t = true := by
  cases h with
  | rejected | queued | missing => exact hreg
  | opened => rwa [← Function.update_of_ne ht.ne true app.tagTable]

/-- A request to publish takes no tag back. -/
theorem Published.nextTag_le (h : Published engine app client stream app') :
    app.nextTag ≤ app'.nextTag := by
  cases h with
  | rejected | queued | missing => exact le_rfl
  | opened => exact Nat.le_succ _

/-- What waits at a context is replaced only by what its client asks for. -/
theorem Published.waits (h : Published engine app client stream app') (ht : t < app.nextTag)
    {r : Client × SourceStream} (hwaits : (app.contexts t).republishInfo = some r)
    (hsame : (app.contexts t).SameClient r.1) :
    ∃ r', (app'.contexts t).republishInfo = some r' ∧ (app.contexts t).SameClient r'.1 := by
  cases h with
  | rejected | missing => exact ⟨r, hwaits, hsame⟩
  | queued u hbound hother =>
    by_cases hut : t = u
    · subst hut
      exact ⟨(client, stream), by rw [App.modify_self], hother⟩
    · exact ⟨r, by rwa [App.modify_ne app _ hut], hsame⟩
  | opened =>
    obtain ⟨-, -, hkept⟩ :=
      open_contexts app client stream (parseQueryString stream.publishQueryString)
    exact ⟨r, by rwa [hkept t ht.ne], hsame⟩

/-- Taking up what waits, once it no longer does. -/
theorem republish_some (engine : Engine)
    (hw : (app.contexts t).republishInfo = some (client, stream)) :
    Published engine (app.modify t fun c => { c with republishInfo := none }) client stream
      (republish engine app t) := by
  rw [republish, hw]
  exact published_onPublish engine _ client stream

/-- Without a request that waits nothing is taken up. -/
theorem republish_none (hw : (app.contexts t).republishInfo = none) :
    republish engine app t = app := by
  rw [republish, hw]

/-- A quiet change keeps the requests that wait. -/
theorem Quiet.republishInfo (h : Quiet t app app') (u : ℕ) :
    (app'.contexts u).republishInfo = (app.contexts u).republishInfo :=
  congrArg (fun r => r.2.2.2.2.2) (h.request u)

/-- It keeps the clients. -/
theorem Quiet.client_eq (h : Quiet t app app') (u : ℕ) :
    (app'.contexts u).client = (app.contexts u).client :=
  congrArg Prod.fst (h.request u)

/-- No event takes a tag back. -/
theorem Occurs.nextTag_le (h : Occurs engine app app') : app.nextTag ≤ app'.nextTag := by
  cases h with
  | publish client stream _ h => exact h.nextTag_le
  | quiet t _ h => exact h.nextTag.ge
  | republish t mid h =>
    cases hw : (mid.contexts t).republishInfo with
    | none =>
      rw [republish_none hw]
      exact h.nextTag.ge
    | some r =>
      rw [← h.nextTag]
      exact (republish_some engine hw).nextTag_le

/-- A context that is not registered stays so. -/
theorem Occurs.registered (h : Occurs engine app app') (ht : t < app.nextTag)
    (hreg : app'.tagTable t = true) : app.tagTable t = true := by
  cases h with
  | publish client stream _ h => exact h.registered ht hreg
  | quiet u _ h => exact h.registered t hreg
  | republish u mid h =>
    cases hw : (mid.contexts u).republishInfo with
    | none =>
      rw [republish_none hw] at hreg
      exact h.registered t hreg
    | some r =>
      have hmid : mid.tagTable t = true :=
        (republish_some engine hw).registered (lt_of_lt_of_eq ht h.nextTag.symm) hreg
      exact h.registered t hmid

/-- In every state that is reached, a name passes from one context to another
within one event only by the request that waited at the former. -/
theorem relay_takeover (hs : run (relayStep engine) onAppStart es = some app)
    (hstep : relayStep engine app e = some app') (ht : app.streamTable n = some t)
    (hu : app'.streamTable n = some u) (hne : u ≠ t) :
    (app.contexts t).SameClient (app'.contexts u).client ∧
      ∃ stream, (app.contexts t).republishInfo = some ((app'.contexts u).client, stream) ∧
        (app'.contexts u).sourceStream = some stream := by
  have h := invariant_of_run (invariant_onAppStart engine) hs
  have hkept : app'.streamTable n ≠ some t := by
    rw [hu]
    exact fun hut => hne (Option.some.inj hut)
  cases occurs_of_relayStep hstep with
  | publish client stream _ hp =>
    obtain hn | ⟨-, hfree, -⟩ := hp.names n
    · exact absurd (hn.trans ht) hkept
    · rw [ht] at hfree
      cases hfree
  | quiet v _ hq =>
    obtain hn | ⟨-, hnone⟩ := hq.names n
    · exact absurd (hn.trans ht) hkept
    · rw [hu] at hnone
      cases hnone
  | republish v mid hq =>
    cases hw : (mid.contexts v).republishInfo with
    | none =>
      rw [republish_none hw] at hu hkept
      obtain hn | ⟨-, hnone⟩ := hq.names n
      · exact absurd (hn.trans ht) hkept
      · rw [hu] at hnone
        cases hnone
    | some r =>
      obtain ⟨client, stream⟩ := r
      have hwaits := (hq.republishInfo v).symm.trans hw
      obtain hn | ⟨-, hfree, htag, hclient, hsource⟩ := (republish_some engine hw).names n
      · have hmid : (mid.streamTable n) = some u := hn.symm.trans hu
        obtain hn' | ⟨-, hnone⟩ := hq.names n
        · exact absurd ((hmid.symm.trans (hn'.trans ht))) fun hut => hne (Option.some.inj hut)
        · rw [hmid] at hnone
          cases hnone
      · obtain rfl : u = mid.nextTag := Option.some.inj (hu.symm.trans htag)
        obtain hn' | ⟨hv, -⟩ := hq.names n
        · have hbound : mid.streamTable n = none := hfree
          rw [hn', ht] at hbound
          cases hbound
        · obtain rfl : t = v := Option.some.inj (ht.symm.trans hv)
          have hmay := (h.consistent t (h.given_of_bound ht)).requested.queued client stream hwaits
          have hnew : ((republish engine mid t).contexts mid.nextTag).client = client := hclient
          rw [hnew]
          exact ⟨hmay.client, stream, hwaits, hsource⟩

/-- A context with a request of the same client that waits. -/
def waitingRelay : App :=
  onPublish plainEngine (onPublish plainEngine onAppStart encoder (groupStream (ascii "live")))
    encoder (groupStream (ascii "live"))

/-- A stream that is published twice leads there. -/
theorem run_waitingRelay : run (relayStep plainEngine) onAppStart
    [.publish encoder (groupStream (ascii "live")), .publish encoder (groupStream (ascii "live"))] =
      some waitingRelay := by
  rw [run, relayStep, Option.bind_some, run, relayStep, Option.bind_some, run, waitingRelay]

/-- It after its connection was closed. -/
def closedRelay : App :=
  onStatus plainEngine ⟨true, true, true, true, true⟩ waitingRelay 0 .connectClosed

/-- The end of the connection leads from there to the next relay. -/
theorem step_closedRelay : relayStep plainEngine waitingRelay
    (.status 0 .connectClosed ⟨true, true, true, true, true⟩) = some closedRelay := by
  have hmay : 0 < waitingRelay.nextObject ∧
      (waitingRelay.objects 0).mayReport .connectClosed = true := by
    decide +kernel
  rw [relayStep, if_pos hmay, closedRelay]

/-- The request that has waited is relayed. -/
theorem relay_takeover_closed :
    (closedRelay.contexts 2).sourceStream = some (groupStream (ascii "live")) := by
  have hfrom : waitingRelay.streamTable (ascii "live") = some 1 := by decide +kernel
  have hto : closedRelay.streamTable (ascii "live") = some 2 := by decide +kernel
  obtain ⟨-, stream, hwaits, hsource⟩ :=
    relay_takeover run_waitingRelay step_closedRelay hfrom hto (by decide)
  have hstream : (waitingRelay.contexts 1).republishInfo =
      some (encoder, groupStream (ascii "live")) := by decide +kernel
  rw [hstream, Option.some.injEq, Prod.mk.injEq] at hwaits
  rw [hsource, hwaits.2]

/-- A request that is taken up is relayed by a new context, waits at the
context that has the name, or is another client's, which disconnects it. -/
theorem republish_takes_up (hw : (app.contexts t).republishInfo = some (client, stream))
    (hvalidated : validateStreamParams engine.toNumber
      (parseQueryString stream.publishQueryString) = true)
    (hown : engine.inherited stream.name = false) :
    ∃ u, (republish engine app t).streamTable stream.name = some u ∧
      (((republish engine app t).contexts u).client = client ∧
          ((republish engine app t).contexts u).sourceStream = some stream ∨
        ((republish engine app t).contexts u).SameClient client ∧
          ((republish engine app t).contexts u).republishInfo = some (client, stream) ∨
        ¬((republish engine app t).contexts u).SameClient client ∧
          client ∈ (republish engine app t).disconnected) := by
  have hp := republish_some engine hw
  generalize republish engine app t = app' at hp
  cases hp with
  | rejected hrej =>
    obtain hinvalid | ⟨u, hbound, hother⟩ := hrej
    · rw [hvalidated] at hinvalid
      cases hinvalid
    · exact ⟨u, hbound, Or.inr (Or.inr ⟨hother, List.mem_cons_self⟩)⟩
  | queued u hbound hsame =>
    refine ⟨u, hbound, Or.inr (Or.inl ⟨?_, by rw [App.modify_self]⟩)⟩
    rw [App.modify_self]
    exact hsame
  | missing hinherited =>
    rw [hown] at hinherited
    cases hinherited
  | opened hname =>
    obtain ⟨hclient, hsource, -⟩ := open_contexts
      (app.modify t fun c => { c with republishInfo := none }) client stream
      (parseQueryString stream.publishQueryString)
    exact ⟨_, Function.update_self .., Or.inl ⟨hclient, hsource⟩⟩

/-- Unbinding and ending a shutdown keep the state. -/
theorem shutdown_state (app : App) (t : ℕ) :
    ((clearShutdown (unbind app t) t).contexts t).state = (app.contexts t).state := by
  have hunbind : (unbind app t).contexts = app.contexts := by
    rw [unbind]
    split_ifs
    · rfl
    · rfl
  rw [clearShutdown, hunbind]
  cases (app.contexts t).shutdownID with
  | none => rw [hunbind]
  | some timer => simp [App.modify, hunbind]

/-- Destroying a context whose connection is closed unregisters it. -/
theorem destroy_tagTable (ht : t < app.nextTag) (hstate : (app.contexts t).state = .disconnected) :
    (destroyStreamContext engine app t).tagTable t = false := by
  have hgone : ∀ mid : App, (unregisterStreamContext mid t).tagTable t = false := by
    intro mid
    rw [unregister_tagTable, Function.update_self]
  have htag := ((quiet_shutdown app t).trans (quiet_unregister _ t)).nextTag
  rw [destroyStreamContext, shutdown_state, hstate]
  dsimp only
  cases hw : ((unregisterStreamContext (clearShutdown (unbind app t) t) t).contexts t).republishInfo
    with
  | none =>
    rw [republish_none hw]
    exact hgone _
  | some r =>
    refine Bool.eq_false_iff.mpr fun hreg => ?_
    have hold := (republish_some engine hw).registered (htag.symm ▸ ht) hreg
    exact absurd (hold.symm.trans (hgone _)) (by decide)

/-- A status that says that a connection is closed. -/
def Code.Closes (code : Code) : Prop :=
  code ∈ [Code.connectFailed, .connectRejected, .connectAppShutdown, .connectClosed]

/-- A connection may be closed at any time. -/
theorem Code.Closes.mayReport (h : code.Closes) (o : NetObject) : o.mayReport code = true := by
  simp only [Code.Closes, List.mem_cons, List.not_mem_nil, or_false] at h
  obtain rfl | rfl | rfl | rfl := h <;> rfl

/-- The handler destroys the context of a connection that is closed. -/
theorem Code.Closes.handler (h : code.Closes) (engine : Engine) (calls : Calls) (app : App)
    (t : ℕ) : netConnectionStatusHandler engine calls app t code =
      destroyStreamContext engine (app.modify t fun c => { c with state := .disconnected }) t := by
  simp only [Code.Closes, List.mem_cons, List.not_mem_nil, or_false] at h
  obtain rfl | rfl | rfl | rfl := h <;> rfl

/-- A context that was given out and is not registered stays so. -/
theorem unregistered_of_run (hs : run (relayStep engine) app es = some app')
    (ht : t < app.nextTag) (hreg : app.tagTable t = false) : app'.tagTable t = false := by
  refine (run_invariant (P := fun s => t < s.nextTag ∧ s.tagTable t = false)
    (fun s e s' hold hstep => ?_) ⟨ht, hreg⟩ hs).2
  have ho := occurs_of_relayStep hstep
  refine ⟨hold.1.trans_le ho.nextTag_le, Bool.eq_false_iff.mpr fun hnew => ?_⟩
  exact absurd ((ho.registered hold.1 hnew).symm.trans hold.2) (by decide)

/-- In every state that is reached, a registered context has a connection of
its own that may close at any time. From then on, whatever happens, the
context is not registered, and neither a name nor an object leads to it. -/
theorem relay_released (hs : run (relayStep engine) onAppStart es = some app)
    (ht : app.tagTable t = true) :
    ∃ i, (app.contexts t).netConnection = some i ∧ ∀ code, code.Closes → ∀ calls,
      (relayStep engine app (.status i code calls)).isSome = true ∧
        ∀ es' app', run (relayStep engine) app (.status i code calls :: es') = some app' →
          app'.tagTable t = false ∧ (∀ n, app'.streamTable n ≠ some t) ∧
            ∀ j, (app'.objects j).context ≠ some t := by
  have h := invariant_of_run (invariant_onAppStart engine) hs
  have hgiven := h.wellFormed.registered t ht
  have hv := h.consistent t hgiven
  obtain ⟨o, ho⟩ := hv.connection ht
  obtain ⟨i, hi, hobject⟩ := exists_of_view_object ho
  obtain ⟨hcontext, hkind⟩ := h.wellFormed.context_eq hi
  have honStatus : (app.objects i).onStatus = true := by
    rw [hobject]
    exact hv.listening o ho
  have hexists : i < app.nextObject := by
    by_contra hnot
    rw [h.wellFormed.fresh i (Nat.not_lt.mp hnot)] at hcontext
    cases hcontext
  refine ⟨i, hi, fun code hcode calls => ?_⟩
  have hstep : relayStep engine app (.status i code calls) =
      some (onStatus engine calls app i code) := if_pos ⟨hexists, hcode.mayReport _⟩
  refine ⟨by rw [hstep]; rfl, fun es' app' hrun => ?_⟩
  have hdestroy : onStatus engine calls app i code = destroyStreamContext engine
      ((app.modifyObject i fun o => o.report code).modify t fun c =>
        { c with state := .disconnected }) t := by
    have hself : (app.modifyObject i fun o => o.report code).objects i =
        (app.objects i).report code := by
      simp [App.modifyObject]
    have hon : ((app.objects i).report code).onStatus = true := honStatus
    have hc : ((app.objects i).report code).context = some t := hcontext
    have hk : ((app.objects i).report code).kind = .netConnection := hkind
    rw [onStatus, hself, hon, hc, hk]
    exact hcode.handler engine calls _ t
  have hinvariant := invariant_of_run h hrun
  obtain ⟨mid, hmid, hrest⟩ := run_cons_eq_some hrun
  obtain rfl := Option.some.inj (hstep.symm.trans hmid)
  have hgone : app'.tagTable t = false := by
    refine unregistered_of_run hrest
      (hgiven.2.trans_le (occurs_of_relayStep hstep).nextTag_le) ?_
    rw [hdestroy]
    exact destroy_tagTable hgiven.2 (by rw [App.modify_self])
  have hunregistered : app'.tagTable t ≠ true := Bool.eq_false_iff.mp hgone
  exact ⟨hgone, fun n hn => hunregistered (hinvariant.wellFormed.bound n t hn).1,
    fun j hj =>
      hunregistered (hinvariant.wellFormed.held t _ j (hinvariant.wellFormed.object_eq hj))⟩

/-- The context before it is gone. -/
theorem relay_released_closed : closedRelay.tagTable 1 = false := by
  have hreg : waitingRelay.tagTable 1 = true := by decide +kernel
  have hobject : (waitingRelay.contexts 1).netConnection = some 0 := by decide +kernel
  obtain ⟨i, hi, hclosed⟩ := relay_released run_waitingRelay hreg
  obtain rfl := Option.some.inj (hobject.symm.trans hi)
  have hrun : run (relayStep plainEngine) waitingRelay
      [.status 0 .connectClosed ⟨true, true, true, true, true⟩] = some closedRelay := by
    rw [run_cons step_closedRelay, run]
  exact ((hclosed .connectClosed (by simp [Code.Closes]) _).2 [] closedRelay hrun).1

end VideooServer.MulticastRelay

import VideooServer.RelayLifecycle

/-!
# Runs of the multicast application

What holds in every state that the application can reach, for any events in
any order: its handlers throw exactly on names that every object has, a name
has at most one active relay, and contexts that are gone are not referred to.
A connection that closes ends its relay for good, whatever its state.
-/

namespace VideooServer.MulticastRelay

open ByteText StepRuns MulticastQuery

/-- A request for a name that is found in every object, though it is no
context. -/
def Event.Trips (engine : Engine) : Event → Prop
  | .publish _ stream =>
    validateStreamParams engine.toNumber (parseQueryString stream.publishQueryString) = true ∧
      engine.inherited stream.name = true
  | .releaseStream _ streamName => engine.inherited streamName = true
  | _ => False

variable {engine : Engine} {app app' : App} {e : Event} {es : List Event} {t u i : ℕ}

/-- The invariant holds at the start of the application. -/
theorem invariant_onAppStart (engine : Engine) : Invariant engine onAppStart := by
  have hobject : ∀ (t : ℕ) (k : Kind), (onAppStart.contexts t).object k = none := by
    intro t k
    cases k <;> rfl
  refine ⟨⟨fun i t k => ?_, fun _ _ => rfl, fun t k i hi => ?_, fun t ht => ?_, fun name t ht => ?_,
    fun id t ht => ?_, Nat.one_pos⟩, fun t ht => ?_⟩
  · simp only [App.references, hobject]
    exact iff_of_false (fun h => by cases h) (fun h => by cases h)
  · rw [hobject] at hi
    cases hi
  · cases ht
  · cases ht
  · cases ht
  · exact absurd ht.2 (Nat.not_lt.mpr ht.1)

/-- An exception that nothing catches concerns no context. -/
theorem Invariant.throw (h : Invariant engine app) : Invariant engine app.throw :=
  ⟨⟨h.wellFormed.matched, h.wellFormed.fresh, h.wellFormed.held, h.wellFormed.registered,
    h.wellFormed.bound, h.wellFormed.timers, h.wellFormed.first⟩, h.consistent⟩

/-- An inherited name is never bound. -/
theorem Invariant.unbound (h : Invariant engine app) {name : Bytes}
    (hinherited : engine.inherited name = true) : app.streamTable name = none := by
  cases hn : app.streamTable name with
  | none => rfl
  | some t =>
    have hown := (h.wellFormed.bound name t hn).2.2
    rw [hinherited] at hown
    cases hown

/-- The context that a name is bound to has a tag that was given out. -/
theorem Invariant.given_of_bound (h : Invariant engine app) {name : Bytes}
    (hn : app.streamTable name = some t) : app.Given t :=
  h.wellFormed.registered t (h.wellFormed.bound name t hn).1

/-- What an object reports keeps the invariant. -/
theorem keeps_onStatus (calls : Calls) (h : Invariant engine app) {code : Code}
    (hmay : (app.objects i).mayReport code = true) :
    Keeps engine app (onStatus engine calls app i code) := by
  have hself : (app.modifyObject i fun o => o.report code).objects i =
      (app.objects i).report code := by
    simp [App.modifyObject]
  rw [onStatus, hself]
  cases hi : (app.objects i).context with
  | none =>
    have hnone : ((app.objects i).report code).context = none := hi
    have hnoted := keeps_modifyObject_of_none h hi (fun o => o.report code) hnone
    rw [hnone]
    cases ((app.objects i).report code).onStatus
    · exact hnoted
    · exact hnoted
  | some t =>
    have hsome : ((app.objects i).report code).context = some t := hi
    have hreg := h.wellFormed.held t _ i (h.wellFormed.object_eq hi)
    have hnoted : Keeps engine app (app.modifyObject i fun o => o.report code) :=
      (becomes_report h.wellFormed hi code).keeps h
        ((h.consistent t (h.wellFormed.registered t hreg)).assign (h.wellFormed.view_object hi)
          ((app.objects i).report code) rfl id (List.subset_cons_self _ _))
    rw [hsome]
    cases hon : (app.objects i).onStatus with
    | false =>
      have hoff : ((app.objects i).report code).onStatus = false := hon
      rw [hoff]
      exact hnoted
    | true =>
      have hinstalled : ((app.objects i).report code).onStatus = true := hon
      rw [hinstalled]
      cases hkind : (app.objects i).kind with
      | netConnection =>
        have hk : ((app.objects i).report code).kind = .netConnection := hkind
        rw [hk]
        exact keeps_netConnectionStatusHandler calls h hi hkind hmay
      | netGroup =>
        have hk : ((app.objects i).report code).kind = .netGroup := hkind
        rw [hk]
        exact keeps_netGroupStatusHandler calls h hi hkind hon hmay
      | netStream =>
        have hk : ((app.objects i).report code).kind = .netStream := hkind
        rw [hk]
        exact keeps_netStreamStatusHandler calls h hi hkind hon hmay

/-- The end of a stream keeps the invariant. -/
theorem keeps_onUnpublish (h : Invariant engine app) (stream : SourceStream) :
    Keeps engine app (onUnpublish engine app stream) := by
  rw [onUnpublish]
  cases hn : app.streamTable stream.name with
  | none => exact h.keeps
  | some t =>
    dsimp only
    split_ifs
    · exact keeps_destroyStreamContext h (h.given_of_bound hn)
    · exact h.keeps

/-- So does a call of releaseStream, for a name that is no inherited one. -/
theorem keeps_releaseStream (h : Invariant engine app) (client : Client) {streamName : Bytes}
    (hown : ¬engine.inherited streamName = true) :
    Keeps engine app (releaseStream engine app client streamName) := by
  rw [releaseStream]
  cases hn : app.streamTable streamName with
  | none =>
    dsimp only
    rw [if_neg hown]
    exact h.keeps
  | some t =>
    dsimp only
    split_ifs
    · exact keeps_destroyStreamContext h (h.given_of_bound hn)
    · exact h.keeps

/-- A handler throws exactly on a request that trips, and keeps the invariant
in any case. -/
theorem invariant_relayStep (h : Invariant engine app) (hs : relayStep engine app e = some app') :
    Invariant engine app' ∧ (app'.threw = true ↔ app.threw = true ∨ e.Trips engine) := by
  have hkeeps : ¬e.Trips engine → Keeps engine app app' →
      Invariant engine app' ∧ (app'.threw = true ↔ app.threw = true ∨ e.Trips engine) :=
    fun hnot hk => ⟨hk.invariant, by rw [hk.threw, or_iff_left hnot]⟩
  cases e with
  | publish client stream =>
    obtain rfl := Option.some.inj hs
    by_cases htrips : (Event.publish client stream).Trips engine
    · obtain ⟨hvalid, hinherited⟩ := htrips
      have hthrow : onPublish engine app client stream = app.throw := by
        rw [onPublish, hvalid, if_neg (by decide), h.unbound hinherited]
        exact if_pos hinherited
      rw [hthrow]
      exact ⟨h.throw, iff_of_true rfl (Or.inr ⟨hvalid, hinherited⟩)⟩
    · refine hkeeps htrips (keeps_onPublish h client stream fun hvalid => ?_)
      simpa using fun hinherited => htrips ⟨hvalid, hinherited⟩
  | unpublish client stream =>
    obtain rfl := Option.some.inj hs
    exact hkeeps id (keeps_onUnpublish h stream)
  | releaseStream client streamName =>
    obtain rfl := Option.some.inj hs
    by_cases hinherited : engine.inherited streamName = true
    · have hthrow : releaseStream engine app client streamName = app.throw := by
        rw [releaseStream, h.unbound hinherited]
        exact if_pos hinherited
      rw [hthrow]
      exact ⟨h.throw, iff_of_true rfl (Or.inr hinherited)⟩
    · exact hkeeps hinherited (keeps_releaseStream h client hinherited)
  | status i code calls =>
    rw [relayStep] at hs
    split_ifs at hs with hmay
    obtain rfl := Option.some.inj hs
    exact hkeeps id (keeps_onStatus calls h hmay.2)
  | interval id =>
    obtain ⟨t, ht, rfl⟩ := Option.map_eq_some_iff.mp hs
    exact hkeeps (fun htrips => htrips) (keeps_destroyStreamContext h (h.wellFormed.timers id t ht))

/-- It holds after every run. -/
theorem invariant_of_run (h : Invariant engine app)
    (hs : run (relayStep engine) app es = some app') :
    Invariant engine app' :=
  run_invariant (fun _ _ _ hi hstep => (invariant_relayStep hi hstep).1) h hs

/-- A run throws exactly when one of its events trips. -/
theorem threw_of_run (h : Invariant engine app) (hs : run (relayStep engine) app es = some app') :
    app'.threw = true ↔ app.threw = true ∨ ∃ e ∈ es, e.Trips engine := by
  induction es generalizing app with
  | nil =>
    cases hs
    simp
  | cons e es ih =>
    obtain ⟨mid, hstep, hs⟩ := run_cons_eq_some hs
    obtain ⟨hmid, hthrew⟩ := invariant_relayStep h hstep
    rw [ih hmid hs, hthrew, List.exists_mem_cons_iff, or_assoc]

/-- An engine that converts single digits, with one name in every object. -/
def plainEngine : Engine where
  toNumber s := [ascii "1", ascii "2", ascii "3"].findIdx? (· == s) |>.map (· + 1)
  inherited name := name == ascii "toString"

/-- An encoder. -/
def encoder : Client := ⟨ascii "10.0.0.7", ascii "5", ascii "rtmp://10.0.0.1/multicast"⟩

/-- Its stream, for a peer-to-peer group. -/
def groupStream (name : Bytes) : SourceStream :=
  ⟨name, ascii "fms.multicast.type=3&fms.multicast.groupspec=G"⟩

/-- In every state that is reached, a name is bound to each context of an
active relay for it, and there is at most one. -/
theorem relay_exclusive (hs : run (relayStep engine) onAppStart es = some app)
    (ht : app.tagTable t = true) (hactive : (app.contexts t).state.Active) :
    app.streamTable (app.contexts t).streamName = some t ∧
      ∀ u, app.tagTable u = true → (app.contexts u).state.Active →
        (app.contexts u).streamName = (app.contexts t).streamName → u = t := by
  have h := invariant_of_run (invariant_onAppStart engine) hs
  have hbound : ∀ u, app.tagTable u = true → (app.contexts u).state.Active →
      app.streamTable (app.contexts u).streamName = some u := by
    intro u hu hact
    have hb := ((h.consistent u (h.wellFormed.registered u hu)).active hact).1
    simpa [App.view] using hb
  refine ⟨hbound t ht hactive, fun u hu hact hname => ?_⟩
  have hb := hbound u hu hact
  rw [hname, hbound t ht hactive] at hb
  exact (Option.some.inj hb).symm

/-- The name of a stream that was just published is bound to its context. -/
theorem relay_exclusive_published :
    (onPublish plainEngine onAppStart encoder (groupStream (ascii "live"))).streamTable
      (ascii "live") = some 1 := by
  have hs : run (relayStep plainEngine) onAppStart
      [.publish encoder (groupStream (ascii "live"))] =
        some (onPublish plainEngine onAppStart encoder (groupStream (ascii "live"))) := rfl
  have hreg : (onPublish plainEngine onAppStart encoder
      (groupStream (ascii "live"))).tagTable 1 = true := by decide +kernel
  have hactive : ((onPublish plainEngine onAppStart encoder
      (groupStream (ascii "live"))).contexts 1).state.Active := by decide +kernel
  have hname : ((onPublish plainEngine onAppStart encoder
      (groupStream (ascii "live"))).contexts 1).streamName = ascii "live" := by decide +kernel
  have hbound := (relay_exclusive hs hreg hactive).1
  rwa [hname] at hbound

/-- In every state that is reached, a context was requested with parameters
that its event type needs, and its relay came up in order: the connection is
established before there is a group or a stream, an event type with a group
of its own has joined it before there is a stream, and a relay that counts as
started has a stream that has started to publish. -/
theorem relay_order (hs : run (relayStep engine) onAppStart es = some app) (ht : app.Given t) :
    (app.contexts t).Valid engine ∧
      ((app.contexts t).netGroup ≠ none →
        (app.view t).HasReported .netConnection .connectSuccess ∧
          (app.contexts t).Joins engine) ∧
      ((app.contexts t).mcastNetStream ≠ none →
        (app.view t).HasReported .netConnection .connectSuccess ∧
          ((app.contexts t).Joins engine →
            (app.view t).HasReported .netGroup .connectSuccess)) ∧
      ((app.contexts t).state = .republishing →
        (app.view t).HasReported .netStream .publishStart) := by
  have hv := (invariant_of_run (invariant_onAppStart engine) hs).consistent t ht
  refine ⟨hv.requested.valid, fun hgroup => ?_, fun hstream => ?_, hv.relayed⟩
  · obtain ⟨i, hi⟩ := Option.ne_none_iff_exists'.mp hgroup
    exact hv.group (app.objects i) (congrArg (Option.map app.objects) hi)
  · obtain ⟨i, hi⟩ := Option.ne_none_iff_exists'.mp hstream
    exact hv.stream (app.objects i) (congrArg (Option.map app.objects) hi)

/-- The context of a stream that was just published. -/
theorem relay_order_published :
    ((onPublish plainEngine onAppStart encoder (groupStream (ascii "live"))).contexts 1).Valid
      plainEngine := by
  have hs : run (relayStep plainEngine) onAppStart
      [.publish encoder (groupStream (ascii "live"))] =
        some (onPublish plainEngine onAppStart encoder (groupStream (ascii "live"))) := rfl
  have ht : (onPublish plainEngine onAppStart encoder (groupStream (ascii "live"))).Given 1 := by
    have hnext : (onPublish plainEngine onAppStart encoder
        (groupStream (ascii "live"))).nextTag = 2 := by decide +kernel
    exact ⟨Nat.one_pos, by rw [hnext]; decide⟩
  exact (relay_order hs ht).1

end VideooServer.MulticastRelay

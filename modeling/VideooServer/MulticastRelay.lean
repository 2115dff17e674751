import VideooServer.MulticastQuery
import VideooServer.StepRuns

/-!
# Relaying published streams into multicast groups

The multicast application keeps a context for every stream that it relays,
bound to the name of the stream while it is set up and relayed, and
registered under its tag until it is shut down. Connections, groups and
streams of the server are objects that report their status to a handler;
they refer to their context and the context refers to them. A context that
is gone may still be referred to, so objects and contexts are kept in heaps,
and a handler that finds an object missing throws.
-/

namespace VideooServer.MulticastRelay

open ByteText MulticastQuery

/-- A client of the application. -/
structure Client where
  /-- Network address. -/
  ip : Bytes
  /-- Identifier that the server has given it. -/
  id : Bytes
  /-- URI it has connected to. -/
  uri : Bytes
  deriving DecidableEq

/-- A published stream. -/
structure SourceStream where
  /-- Name it is published under. -/
  name : Bytes
  /-- Query string it is published with. -/
  publishQueryString : Bytes
  deriving DecidableEq

/-- The states of a stream context, in the order of their numbers. -/
inductive StreamState where
  | init
  | connecting
  | connected
  | publishPending
  | republishing
  | unpublishing
  | unpublished
  | disconnecting
  | disconnected
  deriving DecidableEq

/-- The numbers of the states. -/
def StreamState.number : StreamState → ℕ
  | .init => 0
  | .connecting => 1
  | .connected => 2
  | .publishPending => 3
  | .republishing => 4
  | .unpublishing => 5
  | .unpublished => 6
  | .disconnecting => 7
  | .disconnected => 8

/-- A context is being set up or relayed. -/
def StreamState.Active (s : StreamState) : Prop := s.number ≤ StreamState.republishing.number

instance (s : StreamState) : Decidable s.Active := inferInstanceAs (Decidable (_ ≤ _))

/-- The classes of the objects with a status handler. -/
inductive Kind where
  | netConnection
  | netGroup
  | netStream
  deriving DecidableEq

/-- Status codes, without the class of the object that reports them. -/
inductive Code where
  | connectSuccess
  | connectFailed
  | connectRejected
  | connectAppShutdown
  | connectClosed
  | publishStart
  | unpublishSuccess
  | other
  deriving DecidableEq

/-- A connection, a group or a stream of the server. -/
structure NetObject where
  /-- Its class, which decides on the handler. -/
  kind : Kind
  /-- Tag of the context it refers to. -/
  context : Option ℕ
  /-- Whether its status handler is installed. -/
  onStatus : Bool
  /-- Target of a connection. -/
  uri : Bytes
  /-- Whether a connection was closed by the application. -/
  closed : Bool
  /-- Reference of a stream to the one it relays. -/
  stream : Option SourceStream
  /-- Whether a stream is attached to its source. -/
  attached : Bool
  /-- Whether a stream was told to publish. -/
  publishing : Bool
  /-- What it has reported so far. -/
  reported : List Code

/-- What the application knows about a stream that it relays. -/
structure StreamContext where
  /-- The publishing client. -/
  client : Client
  /-- Name of the stream. -/
  streamName : Bytes
  /-- State of the relay. -/
  state : StreamState
  /-- Text of the event type. -/
  type : Bytes
  /-- The target group. -/
  groupspec : Bytes
  /-- Address for IP multicast. -/
  address : Option Bytes
  /-- Address of the local interface. -/
  interfaceAddress : Option Bytes
  /-- The loopback connection. -/
  netConnection : Option ℕ
  /-- The stream into the group. -/
  mcastNetStream : Option ℕ
  /-- The group. -/
  netGroup : Option ℕ
  /-- The stream that is relayed. -/
  sourceStream : Option SourceStream
  /-- A request to publish again that waits for the end of this relay. -/
  republishInfo : Option (Client × SourceStream)
  /-- Timer of a delayed shutdown. -/
  shutdownID : Option ℕ

/-- The application with the objects that it has created. -/
structure App where
  /-- Tag of the next context. -/
  nextTag : ℕ
  /-- The context that is bound to a name. -/
  streamTable : Bytes → Option ℕ
  /-- The contexts that are registered. -/
  tagTable : ℕ → Bool
  /-- All contexts, by tag. -/
  contexts : ℕ → StreamContext
  /-- All objects. -/
  objects : ℕ → NetObject
  /-- The next object. -/
  nextObject : ℕ
  /-- The context that a timer shuts down. -/
  intervals : ℕ → Option ℕ
  /-- The next timer. -/
  nextInterval : ℕ
  /-- The clients whose connection was closed. -/
  disconnected : List Client
  /-- Some handler has thrown an exception that nothing catches. -/
  threw : Bool

/-- What the script engine contributes. -/
structure Engine where
  /-- The number that a text is converted to in a comparison. -/
  toNumber : Bytes → Option ℕ
  /-- The names that a lookup finds in every object, without an own entry. -/
  inherited : Bytes → Bool

/-- Which of the calls work that a handler may make. -/
structure Calls where
  /-- The constructor of a group. -/
  netGroup : Bool
  /-- The constructor of a stream. -/
  netStream : Bool
  /-- setIPMulticastPublishAddress. -/
  publishAddress : Bool
  /-- attach. -/
  attach : Bool
  /-- setInterval. -/
  interval : Bool
  deriving DecidableEq

/-- What happens to the application. -/
inductive Event where
  /-- A client publishes a stream. -/
  | publish (client : Client) (stream : SourceStream)
  /-- A stream is unpublished. -/
  | unpublish (client : Client) (stream : SourceStream)
  /-- A client calls releaseStream. -/
  | releaseStream (client : Client) (streamName : Bytes)
  /-- An object reports its status. -/
  | status (object : ℕ) (code : Code) (calls : Calls)
  /-- A timer fires. -/
  | interval (id : ℕ)

/-- The object of a class that a context refers to. -/
def StreamContext.object (c : StreamContext) : Kind → Option ℕ
  | .netConnection => c.netConnection
  | .netGroup => c.netGroup
  | .netStream => c.mcastNetStream

/-- Let a context refer to an object. -/
def StreamContext.setObject (c : StreamContext) (kind : Kind) (i : Option ℕ) : StreamContext :=
  match kind with
  | .netConnection => { c with netConnection := i }
  | .netGroup => { c with netGroup := i }
  | .netStream => { c with mcastNetStream := i }

/-- Assign to properties of a context. -/
def App.modify (app : App) (tag : ℕ) (f : StreamContext → StreamContext) : App :=
  { app with contexts := Function.update app.contexts tag (f (app.contexts tag)) }

/-- Assign to properties of an object. -/
def App.modifyObject (app : App) (i : ℕ) (f : NetObject → NetObject) : App :=
  { app with objects := Function.update app.objects i (f (app.objects i)) }

/-- Assign to properties of an object that may be missing. -/
def App.modifyObject? (app : App) (i : Option ℕ) (f : NetObject → NetObject) : App :=
  match i with
  | none => app
  | some i => app.modifyObject i f

section Assignments

variable {t u : ℕ}

/-- The objects of a context, with one of them set. -/
@[simp] theorem StreamContext.object_setObject (c : StreamContext) (k : Kind) (i : Option ℕ) :
    (c.setObject k i).object = Function.update c.object k i := by
  funext l
  cases k <;> cases l <;> simp [StreamContext.setObject, StreamContext.object]

/-- Setting an object keeps the name. -/
@[simp] theorem StreamContext.streamName_setObject (c : StreamContext) (k : Kind) (i : Option ℕ) :
    (c.setObject k i).streamName = c.streamName := by cases k <;> rfl

/-- The context that was assigned to. -/
@[simp] theorem App.modify_self (app : App) (t : ℕ) (f : StreamContext → StreamContext) :
    (app.modify t f).contexts t = f (app.contexts t) := by simp [App.modify]

/-- The other contexts are not assigned to. -/
theorem App.modify_ne (app : App) (f : StreamContext → StreamContext) (h : u ≠ t) :
    (app.modify t f).contexts u = app.contexts u := by simp [App.modify, h]

/-- The objects after one that may be missing was assigned to. -/
@[simp] theorem App.modifyObject?_objects (app : App) (i : Option ℕ) (f : NetObject → NetObject)
    (j : ℕ) : (app.modifyObject? i f).objects j =
      if i = some j then f (app.objects j) else app.objects j := by
  cases i with
  | none => rfl
  | some i =>
    by_cases hj : j = i
    · subst hj
      simp [App.modifyObject?, App.modifyObject]
    · simp [App.modifyObject?, App.modifyObject, hj, Ne.symm hj]

section Frame

-- Nothing but the object changes.
variable (app : App) (o : Option ℕ) (f : NetObject → NetObject)

@[simp] theorem App.modifyObject?_contexts : (app.modifyObject? o f).contexts = app.contexts := by
  cases o <;> rfl

@[simp] theorem App.modifyObject?_tagTable : (app.modifyObject? o f).tagTable = app.tagTable := by
  cases o <;> rfl

@[simp] theorem App.modifyObject?_streamTable :
    (app.modifyObject? o f).streamTable = app.streamTable := by
  cases o <;> rfl

@[simp] theorem App.modifyObject?_nextTag : (app.modifyObject? o f).nextTag = app.nextTag := by
  cases o <;> rfl

@[simp] theorem App.modifyObject?_nextObject :
    (app.modifyObject? o f).nextObject = app.nextObject := by
  cases o <;> rfl

@[simp] theorem App.modifyObject?_intervals :
    (app.modifyObject? o f).intervals = app.intervals := by
  cases o <;> rfl

@[simp] theorem App.modifyObject?_threw : (app.modifyObject? o f).threw = app.threw := by
  cases o <;> rfl

@[simp] theorem App.modifyObject?_disconnected :
    (app.modifyObject? o f).disconnected = app.disconnected := by
  cases o <;> rfl

end Frame

end Assignments

/-- Leave a handler with an exception. -/
def App.throw (app : App) : App := { app with threw := true }

/-- A new object with nothing reported yet. -/
def NetObject.new (kind : Kind) (uri : Bytes) : NetObject :=
  ⟨kind, none, false, uri, false, none, false, false, []⟩

/-- Wire a new object up with a context: it refers to the context, its status
handler is installed, and the context refers to it. -/
def App.install (app : App) (tag : ℕ) (o : NetObject) : App :=
  let app := app.modify tag fun c => c.setObject o.kind (some app.nextObject)
  { app with
    objects := Function.update app.objects app.nextObject
      { o with context := some tag, onStatus := true }
    nextObject := app.nextObject + 1 }

section Install

variable (app : App) (t : ℕ) (o : NetObject) {u j : ℕ}

/-- The context refers to the new object. -/
theorem install_contexts_self : (app.install t o).contexts t =
    (app.contexts t).setObject o.kind (some app.nextObject) := by
  simp [App.install, App.modify]

/-- The other contexts are kept. -/
theorem install_contexts_ne (hu : u ≠ t) : (app.install t o).contexts u = app.contexts u := by
  simp [App.install, App.modify, hu]

/-- No context is renamed. -/
theorem install_streamName (u : ℕ) :
    ((app.install t o).contexts u).streamName = (app.contexts u).streamName := by
  by_cases hu : u = t
  · rw [hu, install_contexts_self, StreamContext.streamName_setObject]
  · rw [install_contexts_ne app t o hu]

/-- The new object refers to the context, with its status handler installed. -/
theorem install_objects_self : (app.install t o).objects app.nextObject =
    { o with context := some t, onStatus := true } := by
  simp [App.install, App.modify]

/-- The other objects are kept. -/
theorem install_objects_ne (hj : j ≠ app.nextObject) :
    (app.install t o).objects j = app.objects j := by
  simp [App.install, App.modify, hj]

end Install

/-- registerStream, with the lookups of updateStreamContextLookups. -/
def registerStream (app : App) (client : Client) (stream : SourceStream) (params : Params) : App :=
  { app with
    nextTag := app.nextTag + 1
    contexts := Function.update app.contexts app.nextTag
      { client := client
        streamName := stream.name
        state := .init
        type := (getParam params typeParam).getD []
        groupspec := (getParam params groupspecParam).getD []
        address := if truthy params addressParam then getParam params addressParam else none
        interfaceAddress :=
          if truthy params interfaceParam then getParam params interfaceParam else none
        netConnection := none
        mcastNetStream := none
        netGroup := none
        sourceStream := some stream
        republishInfo := none
        shutdownID := none }
    streamTable := Function.update app.streamTable stream.name (some app.nextTag)
    tagTable := Function.update app.tagTable app.nextTag true }

section Register

variable (app : App) (client : Client) (stream : SourceStream) (params : Params) {u : ℕ} {n : Bytes}

/-- The other contexts are kept. -/
theorem register_contexts_ne (hu : u ≠ app.nextTag) :
    (registerStream app client stream params).contexts u = app.contexts u :=
  Function.update_of_ne hu ..

/-- The new context is registered. -/
theorem register_tagTable_self :
    (registerStream app client stream params).tagTable app.nextTag = true :=
  Function.update_self ..

/-- The other contexts stay registered, or not. -/
theorem register_tagTable_ne (hu : u ≠ app.nextTag) :
    (registerStream app client stream params).tagTable u = app.tagTable u :=
  Function.update_of_ne hu ..

/-- The name of the stream is bound to the new context. -/
theorem register_streamTable_self :
    (registerStream app client stream params).streamTable stream.name = some app.nextTag :=
  Function.update_self ..

/-- The other names stay bound as they are. -/
theorem register_streamTable_ne (hn : n ≠ stream.name) :
    (registerStream app client stream params).streamTable n = app.streamTable n :=
  Function.update_of_ne hn ..

end Register

/-- openMulticastConnection. -/
def openMulticastConnection (app : App) (tag : ℕ) : App :=
  let uri := resetUriProtocol (app.contexts tag).client.uri (ascii "rtmfp")
  (app.install tag (.new .netConnection uri)).modify tag fun c => { c with state := .connecting }

/-- Whether a client is the one that publishes a context's stream. -/
def StreamContext.SameClient (c : StreamContext) (client : Client) : Prop :=
  c.client.ip = client.ip ∧ c.client.id = client.id

instance (c : StreamContext) (client : Client) : Decidable (c.SameClient client) :=
  inferInstanceAs (Decidable (_ ∧ _))

/-- application.onPublish. An inherited name is found in the table of names,
but it is no context and has no client. -/
def onPublish (engine : Engine) (app : App) (client : Client) (stream : SourceStream) : App :=
  let params := parseQueryString stream.publishQueryString
  if !validateStreamParams engine.toNumber params then
    { app with disconnected := client :: app.disconnected }
  else
    match app.streamTable stream.name with
    | some tag =>
      if !decide ((app.contexts tag).SameClient client) then
        { app with disconnected := client :: app.disconnected }
      else app.modify tag fun c => { c with republishInfo := some (client, stream) }
    | none =>
      if engine.inherited stream.name then app.throw
      else openMulticastConnection (registerStream app client stream params) app.nextTag

/-- Remove an object's references before it is dropped. -/
def NetObject.release (o : NetObject) : NetObject :=
  { o with context := none, onStatus := false }

/-- unregisterStreamContext. -/
def unregisterStreamContext (app : App) (tag : ℕ) : App :=
  let c := app.contexts tag
  let app := app.modifyObject? c.netConnection NetObject.release
  let app := app.modifyObject? c.mcastNetStream fun o => { o.release with stream := none }
  let app := app.modifyObject? c.netGroup NetObject.release
  let app := app.modify tag fun c =>
    { c with netConnection := none, mcastNetStream := none, netGroup := none, sourceStream := none }
  { app with tagTable := Function.update app.tagTable tag false }

section Unregister

variable (app : App) (t : ℕ) {u : ℕ}

/-- The context refers to nothing any more. -/
theorem unregister_contexts_self : (unregisterStreamContext app t).contexts t =
    { app.contexts t with
      netConnection := none, mcastNetStream := none, netGroup := none, sourceStream := none } := by
  simp [unregisterStreamContext, App.modify]

/-- The other contexts are kept. -/
theorem unregister_contexts_ne (hu : u ≠ t) :
    (unregisterStreamContext app t).contexts u = app.contexts u := by
  simp [unregisterStreamContext, App.modify, hu]

/-- The context has no object any more. -/
theorem unregister_object :
    ((unregisterStreamContext app t).contexts t).object = fun _ => none := by
  rw [unregister_contexts_self]
  funext k
  cases k <;> rfl

/-- Its tag is removed from the table. -/
theorem unregister_tagTable :
    (unregisterStreamContext app t).tagTable = Function.update app.tagTable t false := by
  simp [unregisterStreamContext, App.modify]

/-- The names stay bound as they are. -/
theorem unregister_streamTable : (unregisterStreamContext app t).streamTable = app.streamTable := by
  simp [unregisterStreamContext, App.modify]

/-- No tag is given out. -/
theorem unregister_nextTag : (unregisterStreamContext app t).nextTag = app.nextTag := by
  simp [unregisterStreamContext, App.modify]

/-- No object is created. -/
theorem unregister_nextObject : (unregisterStreamContext app t).nextObject = app.nextObject := by
  simp [unregisterStreamContext, App.modify]

/-- The timers run on. -/
theorem unregister_intervals : (unregisterStreamContext app t).intervals = app.intervals := by
  simp [unregisterStreamContext, App.modify]

/-- Nothing is thrown. -/
theorem unregister_threw : (unregisterStreamContext app t).threw = app.threw := by
  simp [unregisterStreamContext, App.modify]

/-- Nobody is disconnected. -/
theorem unregister_disconnected :
    (unregisterStreamContext app t).disconnected = app.disconnected := by
  simp [unregisterStreamContext, App.modify]

end Unregister

/-- The first part of destroyStreamContext: unbind the name if it is bound to
this context. -/
def unbind (app : App) (tag : ℕ) : App :=
  if app.streamTable (app.contexts tag).streamName = some tag then
    { app with streamTable := Function.update app.streamTable (app.contexts tag).streamName none }
  else app

/-- The second part: end a delayed shutdown. -/
def clearShutdown (app : App) (tag : ℕ) : App :=
  match (app.contexts tag).shutdownID with
  | none => app
  | some id =>
    { app.modify tag fun c => { c with shutdownID := none } with
      intervals := Function.update app.intervals id none }

/-- What it does to a context that is relayed. -/
def stopPublishing (app : App) (tag : ℕ) : App :=
  match (app.contexts tag).mcastNetStream with
  | none => app.throw
  | some i =>
    (app.modifyObject i fun o => { o with attached := false, stream := none, publishing := false })
      |>.modify tag fun c => { c with state := .unpublishing }

/-- What it does to a context whose connection has to be closed. -/
def closeConnection (app : App) (tag : ℕ) : App :=
  let c := app.contexts tag
  let app := app.modifyObject? c.netGroup fun o => { o with onStatus := false }
  let app := app.modifyObject? c.mcastNetStream fun o =>
    { o with attached := false, stream := none, onStatus := false }
  let app := app.modify tag fun c =>
    { c with sourceStream := if c.mcastNetStream.isSome then none else c.sourceStream }
  match c.netConnection with
  | none => app.throw
  | some i =>
    (app.modifyObject i fun o => { o with closed := true })
      |>.modify tag fun c => { c with state := .disconnecting }

/-- The end of destroyStreamContext: take up a request to publish again. -/
def republish (engine : Engine) (app : App) (tag : ℕ) : App :=
  match (app.contexts tag).republishInfo with
  | none => app
  | some (client, stream) =>
    onPublish engine (app.modify tag fun c => { c with republishInfo := none }) client stream

/-- destroyStreamContext. -/
def destroyStreamContext (engine : Engine) (app : App) (tag : ℕ) : App :=
  let app := clearShutdown (unbind app tag) tag
  match (app.contexts tag).state with
  | .republishing => stopPublishing app tag
  | .connecting | .connected | .publishPending | .unpublished => closeConnection app tag
  | .init | .unpublishing | .disconnecting | .disconnected =>
    republish engine (unregisterStreamContext app tag) tag

/-- application.onUnpublish. -/
def onUnpublish (engine : Engine) (app : App) (stream : SourceStream) : App :=
  match app.streamTable stream.name with
  | none => app
  | some tag =>
    if (app.contexts tag).state.Active then destroyStreamContext engine app tag else app

/-- Client.prototype.releaseStream. -/
def releaseStream (engine : Engine) (app : App) (client : Client) (streamName : Bytes) : App :=
  match app.streamTable streamName with
  | none => if engine.inherited streamName then app.throw else app
  | some tag =>
    if (app.contexts tag).SameClient client ∧ (app.contexts tag).state.Active then
      destroyStreamContext engine app tag
    else app

/-- initMulticastNetStream. -/
def initMulticastNetStream (engine : Engine) (calls : Calls) (app : App) (tag : ℕ) : App :=
  if !calls.netStream then destroyStreamContext engine app tag
  else
    let type := eventType engine.toNumber (app.contexts tag).type
    if (type = some .fusion ∨ type = some .ip) ∧ !calls.publishAddress then
      destroyStreamContext engine app tag
    else
      (app.install tag (.new .netStream [])).modify tag fun c => { c with state := .publishPending }

/-- initNetGroup. -/
def initNetGroup (engine : Engine) (calls : Calls) (app : App) (tag : ℕ) : App :=
  if !calls.netGroup then destroyStreamContext engine app tag
  else app.install tag (.new .netGroup [])

/-- netConnectionStatusHandler, for a connection with a context. -/
def netConnectionStatusHandler (engine : Engine) (calls : Calls) (app : App) (tag : ℕ) :
    Code → App
  | .connectSuccess =>
    let app := app.modify tag fun c => { c with state := .connected }
    let type := eventType engine.toNumber (app.contexts tag).type
    if type = some .fusion ∨ type = some .p2p then initNetGroup engine calls app tag
    else initMulticastNetStream engine calls app tag
  | .connectFailed | .connectRejected | .connectAppShutdown | .connectClosed =>
    destroyStreamContext engine (app.modify tag fun c => { c with state := .disconnected }) tag
  | _ => app

/-- netGroupStatusHandler, for a group with a context. -/
def netGroupStatusHandler (engine : Engine) (calls : Calls) (app : App) (tag : ℕ) : Code → App
  | .connectSuccess => initMulticastNetStream engine calls app tag
  | .connectFailed | .connectRejected => destroyStreamContext engine app tag
  | _ => app

/-- netStreamStatusHandler, for a stream i with a context. -/
def netStreamStatusHandler (engine : Engine) (calls : Calls) (app : App) (i tag : ℕ) : Code → App
  | .connectSuccess =>
    if !calls.attach then destroyStreamContext engine app tag
    else
      app.modifyObject i fun o =>
        { o with attached := true, stream := (app.contexts tag).sourceStream, publishing := true }
  | .publishStart => app.modify tag fun c => { c with state := .republishing }
  | .unpublishSuccess =>
    let app := app.modify tag fun c => { c with state := .unpublished }
    -- The timeout is read from the context's stream.
    if (app.contexts tag).mcastNetStream = none then app.throw
    else if calls.interval then
      { app.modify tag fun c => { c with shutdownID := some app.nextInterval } with
        intervals := Function.update app.intervals app.nextInterval (some tag)
        nextInterval := app.nextInterval + 1 }
    else destroyStreamContext engine app tag
  | _ => app

/-- Note what an object reports. -/
def NetObject.report (o : NetObject) (code : Code) : NetObject :=
  { o with reported := code :: o.reported }

/-- A status of an object: its handler runs when it is installed and the
object still refers to a context. -/
def onStatus (engine : Engine) (calls : Calls) (app : App) (i : ℕ) (code : Code) : App :=
  let app := app.modifyObject i fun o => o.report code
  match (app.objects i).onStatus, (app.objects i).context with
  | true, some tag =>
    match (app.objects i).kind with
    | .netConnection => netConnectionStatusHandler engine calls app tag code
    | .netGroup => netGroupStatusHandler engine calls app tag code
    | .netStream => netStreamStatusHandler engine calls app i tag code
  | _, _ => app

/-- What an object may report: it connects at most once and starts to publish
at most once, and a connection that was closed does not connect. -/
def NetObject.mayReport (o : NetObject) : Code → Bool
  | .connectSuccess => .connectSuccess ∉ o.reported ∧ !o.closed
  | .publishStart => .publishStart ∉ o.reported
  | _ => true

/-- One event. -/
def relayStep (engine : Engine) (app : App) : Event → Option App
  | .publish client stream => some (onPublish engine app client stream)
  | .unpublish _ stream => some (onUnpublish engine app stream)
  | .releaseStream client streamName => some (releaseStream engine app client streamName)
  | .status i code calls =>
    if i < app.nextObject ∧ (app.objects i).mayReport code = true then
      some (onStatus engine calls app i code)
    else none
  | .interval id => (app.intervals id).map (destroyStreamContext engine app)

/-- application.onAppStart. -/
def onAppStart : App where
  nextTag := 1
  streamTable _ := none
  tagTable _ := false
  contexts _ := ⟨⟨[], [], []⟩, [], .init, [], [], none, none, none, none, none, none, none, none⟩
  objects _ := .new .netConnection []
  nextObject := 0
  intervals _ := none
  nextInterval := 1
  disconnected := []
  threw := false

end VideooServer.MulticastRelay

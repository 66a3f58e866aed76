import LazyStorage.Lib.OrderedMap
import LazyStorage.Lib.Runs

/-! # One socket, shared by any number of clients

A connection opens sockets, one at a time, and tells the clients attached to it
what becomes of them. Whoever is told may call the connection back before the
next one hears, so the work left to a call is kept apart: `todo` is the stack the
interpreter would keep, its head what is done next. Sockets and timers report
when nothing else runs.
-/
namespace LazyStorage.Client

open Lib

namespace Connection

inductive Status
  | offline
  | connecting
  | online
deriving DecidableEq

/-- Why the server turned the socket away. -/
structure Reason where
  code : String
  message : String
deriving DecidableEq

/-- What the app has given the connection. -/
structure Options where
  reconnect : Option (ℕ × ℕ)
  keepalive : Bool
  wake : Bool

/-- A client, attached under a store id. -/
structure Attached where
  store : String
  handler : ℕ
deriving DecidableEq

/-- What is called on every attached client. -/
inductive Hook
  | onOpen
  | onClose
  | onClosed (reason : Reason)
deriving DecidableEq

/-- Something told to the app: to a listener or to a client, and the socket that was current then. -/
inductive Told (M : Type)
  | status (listener : ℕ) (status : Status)
  | closed (listener : ℕ) (reason : Reason)
  | hook (client : Attached) (hook : Hook) (conn : Option ℕ)
  | message (client : Attached) (msg : M) (conn : Option ℕ)
deriving DecidableEq

/-- A message of the socket's: one that says nothing (a pong), one about the socket itself, or one for a store. -/
inductive Incoming (M : Type)
  | noise
  | closed (reason : Reason)
  | store (id : String) (msg : M)

/-- What goes out on a socket. -/
inductive Outgoing (M : Type)
  | ping
  | leave (store : String)
  | message (store : String) (msg : M)
deriving DecidableEq

/-- Work a call has left. Listeners are told in the order they were added, those added meanwhile too; clients in the order
attached, those attached by then. -/
inductive Work (M : Type)
  | told (what : Told M)
  | statusFrom (status : Status) (listener : ℕ)
  | closedFrom (reason : Reason) (listener : ℕ)
  | each (hook : Hook)
  | eachOf (hook : Hook) (clients : List Attached)
  | turnedAway
  | undrop
  | makeSocket
  | startKeepalive
  | closeSocket (c : ℕ)
deriving DecidableEq

/-- What the world knows of a socket: that it opened, that it reported its end, that the connection closed it. -/
structure Socket where
  opened : Bool
  gone : Bool
  closed : Bool
deriving DecidableEq

/-- Neither its end is reported, nor was it closed. -/
def Socket.live (k : Socket) : Bool := !k.gone && !k.closed

end Connection

open Connection

/-- `retry` is the delay the pending retry was scheduled with. `told` (the latest first), `sent` and `quiet` (the
keepalive intervals since the socket was last heard from) are for the reader: nothing reads them. -/
structure Connection (M : Type) where
  conn : Option ℕ
  status : Status
  ended : Option Reason
  closedByUser : Bool
  retryDelay : ℕ
  retry : Option ℕ
  keepalive : Bool
  dropping : Bool
  wanted : Bool
  heard : Bool
  silent : ℕ
  watching : Bool
  handlers : OrderedMap String ℕ
  statusListeners : List ℕ
  closedListeners : List ℕ
  listened : ℕ
  sockets : List Socket
  todo : List (Work M)
  told : List (Told M)
  sent : List (ℕ × Outgoing M)
  quiet : ℕ

namespace Connection

/-- What the app may call, at any time. A listener is known by its number. -/
inductive Call (M : Type)
  | connect
  | close
  | attach (storeId : String) (handler : ℕ)
  | detach (client : Attached)
  | send (client : Attached) (msg : M)
  | onStatus
  | onClosed
  | off (listener : ℕ)

inductive Event (M : Type)
  | call (call : Call M)
  | returns
  | runs
  | opened (c : ℕ)
  | message (c : ℕ) (msg : Incoming M)
  | gone (c : ℕ) (unauthorized : Option String)
  | retries
  | ticks
  | wakes (hidden : Bool)

variable {M : Type} (opts : Options)

/-- A connection that nothing was asked of. -/
def create : Connection M where
  conn := none
  status := .offline
  ended := none
  closedByUser := true
  retryDelay := (opts.reconnect.map Prod.fst).getD 0
  retry := none
  keepalive := false
  dropping := false
  wanted := false
  heard := true
  silent := 0
  watching := false
  handlers := .empty
  statusListeners := []
  closedListeners := []
  listened := 0
  sockets := []
  todo := []
  told := []
  sent := []
  quiet := 0

/-- Tell the app, whose code runs before the rest is done. -/
def tell (what : Told M) (rest : List (Work M)) (s : Connection M) : Connection M :=
  { s with todo := .told what :: rest, told := what :: s.told }

/-- `rest` is done once the listeners have heard. -/
def setStatus (next : Status) (rest : List (Work M)) (s : Connection M) : Connection M :=
  if s.status = next then { s with todo := rest ++ s.todo }
  else { s with status := next, todo := .statusFrom next 0 :: (rest ++ s.todo) }

/-- The socket is gone: offline for everyone, then the reason when the server turned it away, then what is to follow. -/
def dropped (rest : List (Work M)) (s : Connection M) : Connection M :=
  setStatus .offline (.each .onClose :: .turnedAway :: .undrop :: rest)
    { s with conn := none, keepalive := false, dropping := true }

/-- Open a socket, unless one is open or opening. -/
def openSocket (s : Connection M) : Connection M :=
  if s.conn.isSome then s else setStatus .connecting [.makeSocket] s

/-- Called while a socket is dropped, it waits until everyone has heard. -/
def connect (s : Connection M) : Connection M :=
  if s.dropping then { s with wanted := true }
  else openSocket { s with closedByUser := false, ended := none, retry := none, watching := opts.wake }

def scheduleRetry (min max : ℕ) (s : Connection M) : Connection M :=
  { s with
    retry := some s.retryDelay
    retryDelay := Nat.min (if s.retryDelay * 2 = 0 then min else s.retryDelay * 2) max }

/-- Everyone has heard that the socket is gone. -/
def undrop (s : Connection M) : Connection M :=
  let s := { s with dropping := false }
  if s.wanted then connect opts { s with wanted := false }
  else if s.ended.isNone && !s.closedByUser then
    match opts.reconnect with
    | some (min, max) => scheduleRetry min max s
    | none => s
  else s

def close (s : Connection M) : Connection M :=
  setStatus .offline [.each .onClose] { s with
    closedByUser := true
    wanted := false
    watching := false
    retry := none
    keepalive := false
    conn := none
    sockets := s.conn.elim s.sockets fun c => s.sockets.modify c fun k => { k with closed := true } }

/-- Only on a socket that is open. -/
def send (msg : Outgoing M) (s : Connection M) : Connection M :=
  match s.conn with
  | some c => if s.status = .online then { s with sent := s.sent ++ [(c, msg)] } else s
  | none => s

/-- A client attached to a socket that is open is told so at once. -/
def attach (client : Attached) (s : Connection M) : Connection M :=
  let s := { s with handlers := s.handlers.set client.store client.handler }
  if s.status = .online then s.tell (.hook client .onOpen s.conn) s.todo else s

/-- By the link that `attach` gave: another client under the id since is left alone. -/
def detach (client : Attached) (s : Connection M) : Connection M :=
  if s.handlers.get client.store = some client.handler then
    send (.leave client.store) { s with handlers := s.handlers.erase client.store }
  else s

/-- What the app calls; an id taken, or none at all, is refused. -/
def call (call : Call M) (s : Connection M) : Option (Connection M) :=
  match call with
  | .connect => some (s.connect opts)
  | .close => some s.close
  | .attach storeId handler =>
    if storeId = "" || s.handlers.has storeId then none else some (s.attach ⟨storeId, handler⟩)
  | .detach client => some (s.detach client)
  | .send client msg => some (s.send (.message client.store msg))
  | .onStatus => some { s with statusListeners := s.statusListeners ++ [s.listened], listened := s.listened + 1 }
  | .onClosed => some { s with closedListeners := s.closedListeners ++ [s.listened], listened := s.listened + 1 }
  | .off listener => some { s with
      statusListeners := s.statusListeners.filter (· ≠ listener)
      closedListeners := s.closedListeners.filter (· ≠ listener) }

/-- The clients attached, in order. -/
def clients (s : Connection M) : List Attached := s.handlers.entries.map fun e => ⟨e.1, e.2⟩

/-- What the interpreter does next, `rest` being left after it. -/
def run (task : Work M) (rest : List (Work M)) (s : Connection M) : Option (Connection M) :=
  let s := { s with todo := rest }
  match task with
  | .told _ => none
  | .statusFrom status listener =>
    match s.statusListeners.find? (listener ≤ ·) with
    | some k => some (s.tell (.status k status) (.statusFrom status (k + 1) :: rest))
    | none => some s
  | .closedFrom reason listener =>
    match s.closedListeners.find? (listener ≤ ·) with
    | some k => some (s.tell (.closed k reason) (.closedFrom reason (k + 1) :: rest))
    | none => some s
  | .each hook => some { s with todo := .eachOf hook s.clients :: rest }
  | .eachOf hook clients =>
    match clients with
    | client :: clients => some (s.tell (.hook client hook s.conn) (.eachOf hook clients :: rest))
    | [] => some s
  | .turnedAway =>
    match s.ended with
    | some reason => some { s with todo := .each (.onClosed reason) :: .closedFrom reason 0 :: rest }
    | none => some s
  | .undrop => some (s.undrop opts)
  | .makeSocket => some { s with conn := some s.sockets.length, sockets := s.sockets ++ [⟨false, false, false⟩] }
  | .startKeepalive =>
    if opts.keepalive then some { s with keepalive := true, heard := true, silent := 0 }
    else some { s with keepalive := false }
  | .closeSocket c => some { s with sockets := s.sockets.modify c fun k => { k with closed := true } }

/-- The backoff starts over when a socket opens. -/
def onopen (c : ℕ) (s : Connection M) : Connection M :=
  if s.conn ≠ some c then s else
  setStatus .online [.startKeepalive, .each .onOpen] { s with
    retryDelay := (opts.reconnect.map Prod.fst).getD 0
    quiet := 0 }

def onmessage (c : ℕ) (msg : Incoming M) (s : Connection M) : Connection M :=
  if s.conn ≠ some c then s else
  let s := { s with heard := true, quiet := 0 }
  match msg with
  | .noise => s
  | .closed reason =>
    if s.ended.isSome then s else dropped [.closeSocket c] { s with ended := some reason }
  | .store id msg =>
    match s.handlers.get id with
    | some handler => s.tell (.message ⟨id, handler⟩ msg s.conn) s.todo
    | none => s

/-- The close code says it too that the server turned the socket away, with its reason. -/
def onclose (c : ℕ) (unauthorized : Option String) (s : Connection M) : Connection M :=
  if s.conn ≠ some c then s else
  dropped [] { s with
    ended := s.ended.or <| unauthorized.map fun reason =>
      ⟨"unauthorized", if reason = "" then "Unauthorized" else reason⟩ }

/-- A keepalive interval is over. Silent for two of them, the socket is half-open, and dropped. -/
def onTick (s : Connection M) : Connection M :=
  match s.conn with
  | none => s
  | some c =>
    if s.status ≠ .online then s else
    let silent := if s.heard then 0 else s.silent + 1
    if 2 ≤ silent then dropped [.closeSocket c] { s with silent, quiet := s.quiet + 1 }
    else send .ping { s with silent, heard := false, quiet := s.quiet + 1 }

/-- The page's word that trying now is worth it, unless it is hidden. -/
def onWake (hidden : Bool) (s : Connection M) : Connection M :=
  if s.conn.isSome || s.closedByUser || s.ended.isSome || hidden then s else
  match opts.reconnect with
  | none => s
  | some (min, _) => openSocket { s with retry := none, retryDelay := min }

/-- The app's code runs: nothing else does, or it was just told something. -/
def atApp (s : Connection M) : Bool :=
  match s.todo with
  | [] => true
  | .told _ :: _ => true
  | _ => false

def step (e : Event M) (s : Connection M) : Option (Connection M) :=
  match e with
  | .call call => if s.atApp then s.call opts call else none
  | .returns =>
    match s.todo with
    | .told _ :: rest => some { s with todo := rest }
    | _ => none
  | .runs =>
    match s.todo with
    | task :: rest => s.run opts task rest
    | [] => none
  | .opened c =>
    if s.todo = [] ∧ (s.sockets[c]?).any (fun k => !k.opened && !k.gone) then
      some (onopen opts c { s with sockets := s.sockets.modify c fun k => { k with opened := true } })
    else none
  | .message c msg =>
    if s.todo = [] ∧ (s.sockets[c]?).any (fun k => k.opened && !k.gone) then some (s.onmessage c msg) else none
  | .gone c unauthorized =>
    if s.todo = [] ∧ (s.sockets[c]?).any (fun k => !k.gone) then
      some (onclose c unauthorized { s with sockets := s.sockets.modify c fun k => { k with gone := true } })
    else none
  | .retries => if s.todo = [] ∧ s.retry.isSome then some (openSocket { s with retry := none }) else none
  | .ticks => if s.todo = [] ∧ s.keepalive then some s.onTick else none
  | .wakes hidden => if s.todo = [] ∧ s.watching then some (s.onWake opts hidden) else none

end Connection

end LazyStorage.Client

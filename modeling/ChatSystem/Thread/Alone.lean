import ChatSystem.Core.Serial
import ChatSystem.Thread.Writers

/-!
# A thread that works alone

Between two messages a thread takes locks, writes in parts and expands one act into others.
While no other thread gets in between, no write fails and the clock stands still, what it does
to the table, the descriptors and the bytes on the sockets is the meaning of the acts in front
of its next `accept` or `recv_message`.
-/

namespace ChatSystem.Thread

open Tasks

/-- What is seen of the shared state: all but the trace, and the bytes accepted, by connection. -/
structure View where
  shared : Shared
  wire : List (Nat × UInt8)

/-- The bytes the kernel accepted, by connection. -/
def wireOf (log : List Event) : List (Nat × UInt8) :=
  log.flatMap fun
    | .wrote c _ bytes => bytes.map (c, ·)
    | _ => []

/-- The shared state without its trace. -/
def Shared.untraced (sh : Shared) : Shared := { sh with log := [] }

/-- What is seen. -/
def see (sh : Shared) : View := ⟨sh.untraced, wireOf sh.log⟩

namespace View

variable (v : View)

/-- Replace all but the bytes. -/
def change (sh : Shared) : View := { v with shared := sh.untraced }

/-- A write loop from beginning to end. -/
def put (fd : Nat) (d : List UInt8) : View :=
  match v.shared.conn fd with
  | some c => { v with wire := v.wire ++ d.map (c, ·) }
  | none => v

/-- `slot_send`. -/
def send (s : Slot) (m : Message) : View := v.put (v.shared.clients s).sockfd (packMessage m)

/-- The loop of a broadcast. -/
def sendActive (skip : Slot) (m : Message) (slots : List Slot) : View :=
  slots.foldl
    (fun v j => if j ≠ skip ∧ (v.shared.clients j).active then v.send j m else v) v

/-- `bcast_note`. -/
def bcastNote (env : Env) (skip : Slot) (note : List UInt8) : View :=
  v.sendActive skip (notice env.now note) (List.finRange maxClients)

/-- Overwrite the login data of a slot. -/
def setEntry (s : Slot) (e : Entry) : View := v.change (v.shared.setEntry s e)

/-- `save_history`. -/
def save (env : Env) (m : Message) (receiver : List UInt8) : View :=
  v.change { v.shared with history := v.shared.history.save env.host m receiver }

/-- The end of a login. -/
def storeLogin (env : Env) (s : Slot) (u : List UInt8) : View :=
  (v.setEntry s ((v.shared.clients s).login u)).send s (loginSuccessful env.now u)

/-- The credential check of a login and what follows. -/
def validate (env : Env) (s : Slot) (u p : List UInt8) : View :=
  if !ChatSystem.validate env.disc env.now u p then v.send s (invalidCredentials env.now u)
  else v.storeLogin env s u

/-- The test for a name in use and what follows. -/
def checkName (env : Env) (s : Slot) (u p : List UInt8) : View :=
  if (v.shared.findUser u).isSome then v.send s (alreadyLoggedIn env.now u)
  else v.validate env s u p

/-- The search for a receiver and what follows. -/
def findTarget (env : Env) (s : Slot) (m : Message) : View :=
  match v.shared.findUser m.receiver.toList with
  | none => v.send s (userNotOnline env.now m)
  | some k => ((v.save env m m.receiverStr).send k m).send s (relayed env.now m)

/-- The `MSG_LOGIN` branch. -/
def login (env : Env) (s : Slot) (m : Message) : View :=
  match scanLogin m.payload.toList with
  | none => v.send s (badLogin env.now)
  | some (u, p) => v.checkName env s u p

/-- The `MSG_LOGOUT` branch. -/
def logout (env : Env) (s : Slot) : View :=
  (v.setEntry s (v.shared.clients s).clear).bcastNote env s (leftNote (v.shared.clients s).name)

/-- The `MSG_BROADCAST` branch. -/
def broadcast (env : Env) (s : Slot) (m : Message) : View :=
  if !(v.shared.clients s).active then v.send s (notAuthenticated env.now)
  else ((v.save env m []).sendActive s m (List.finRange maxClients)).send s (relayed env.now m)

/-- The `MSG_PRIVATE` branch. -/
def priv (env : Env) (s : Slot) (m : Message) : View :=
  if !(v.shared.clients s).active then v.send s (notAuthenticated env.now)
  else v.findTarget env s m

/-- `route`. -/
def route (env : Env) (s : Slot) (m : Message) : View :=
  match m.kind with
  | some .login => v.login env s m
  | some .logout => v.logout env s
  | some .broadcast => v.broadcast env s m
  | some .priv => v.priv env s m
  | some .listUsers => v.send s (userList env.now m v.shared.table)
  | some .historyReq => v.send s (historyResponse env.now m v.shared.history)
  | some .statusChange =>
    (v.setEntry s ((v.shared.clients s).setStatus (scanStatus m.payload.toList))).send s
      (statusUpdated env.now m)
  | _ => v.send s (unknownType env.now m)

/-- `close(fd)`. -/
def close (fd : Nat) : View := v.change (v.shared.close .main fd)

/-- What the accept loop does with a connection. -/
def allot (env : Env) (fd : Nat) : View :=
  match v.shared.findFree with
  | none => (v.put fd (packMessage (serverFull env.now))).close fd
  | some s => v.change (v.shared.fill s fd)

/-- The loads and stores of a thread's cleanup, and its notice. -/
def cleanup (env : Env) (junk : List UInt8) (s : Slot) : View :=
  let w := v.change (v.shared.release s)
  if (v.shared.clients s).active then
    w.bcastNote env s (disconnectedNote (savedName (v.shared.clients s).toEntry junk))
  else w

end View

/-- What the acts mean in given surroundings, with the stack as it is. -/
def meaning (env : Env) (junk : List UInt8) : Meaning Act View where
  stop
    | .accept | .recv _ => true
    | _ => false
  act a v :=
    match a with
    | .accept | .recv _ | .create _ _ _ => v
    | .allot fd _ => v.allot env fd
    | .refuse fd => v.put fd (packMessage (serverFull env.now))
    | .abandon s => v.change (v.shared.abandon s)
    | .closeFd fd => v.close fd
    | .write fd _ rest => v.put fd rest
    | .route s m => v.route env s m
    | .checkName s u p => v.checkName env s u p
    | .validate s u p => v.validate env s u p
    | .storeLogin s u => v.storeLogin env s u
    | .clear s => v.setEntry s (v.shared.clients s).clear
    | .bcastNote skip note => v.bcastNote env skip note
    | .sendActive skip m slots => v.sendActive skip m slots
    | .saveHistory m receiver => v.save env m receiver
    | .findTarget s m => v.findTarget env s m
    | .listUsers s m => v.send s (userList env.now m v.shared.table)
    | .readHistory s m => v.send s (historyResponse env.now m v.shared.history)
    | .setStatus s m =>
      v.setEntry s ((v.shared.clients s).setStatus (scanStatus m.payload.toList))
    | .reply s make => v.send s (make env.now)
    | .sendMessage s m => v.send s m
    | .cleanup s => v.cleanup env junk s
    | .closeSocket s => v.close (v.shared.clients s).sockfd

/-- Inputs in given surroundings, with no failing write and no failing `pthread_create`. -/
structure Smooth (env : Env) (junk : List UInt8) (i : Input) : Prop where
  env : i.env = env
  junk : i.junk = junk
  created : i.created = true
  write : i.write ≠ .failed

variable {env : Env} {junk : List UInt8} {t : Tid} {a : Act} {i : Input} {sh : Shared}
  {out : Outcome Lock Tid Act Shared} {st st' : State}

/-! ## What is seen of a change -/

@[simp] theorem wireOf_append (l k : List Event) : wireOf (l ++ k) = wireOf l ++ wireOf k :=
  List.flatMap_append

/-- An event that is no write does not show. -/
theorem see_note {e : Event} (h : wireOf [e] = []) (sh : Shared) : see (sh.note e) = see sh := by
  simp only [see, Shared.note, wireOf_append, h, List.append_nil]
  rfl

theorem see_wrote (sh : Shared) (c : Nat) (m : Message) (bytes : List UInt8) :
    see (sh.note (.wrote c m bytes)) =
      { see sh with wire := (see sh).wire ++ bytes.map (c, ·) } := by
  simp [see, Shared.note, wireOf, Shared.untraced]

theorem see_setEntry (sh : Shared) (s : Slot) (e : Entry) :
    see (sh.setEntry s e) = (see sh).setEntry s e := rfl

theorem see_close (t : Tid) (fd : Nat) : see (sh.close t fd) = (see sh).close fd := by
  have hconn : (see sh).shared.conn fd = sh.conn fd := rfl
  unfold View.close Shared.close
  rw [hconn]
  cases sh.conn fd with
  | none => rfl
  | some c => exact see_note rfl _

/-! ## The meaning of an act -/

theorem View.put_nil (v : View) (fd : Nat) : v.put fd [] = v := by
  unfold put
  split
  · simp
  · rfl

/-- Writing in two parts. -/
theorem View.put_append (v : View) (fd : Nat) (d d' : List UInt8) :
    (v.put fd d).put fd d' = v.put fd (d ++ d') := by
  unfold put
  cases hc : v.shared.conn fd with
  | none => simp only [hc]
  | some c => simp only [hc, List.map_append, List.append_assoc]

/-- The write loop. -/
theorem meaning_write {fd : Nat} {m : Message} {rest : List UInt8}
    (h : exec t (.write fd m rest) i sh = some out) (hi : Smooth env junk i) :
    (meaning env junk).code out.next (see out.shared) = (see sh).put fd rest := by
  have hconn : (see sh).shared.conn fd = sh.conn fd := rfl
  have hloop : ∀ (b : List UInt8) (v : View),
      (meaning env junk).code ([.act (.write fd m b)] : Code) v = v.put fd b := fun b v => rfl
  simp only [exec] at h
  split at h
  · obtain rfl := goOn_inj h
    exact (View.put_nil _ _).symm
  · next x xs c n hc _ =>
    obtain rfl := goOn_inj h
    have hfirst : see (sh.note (.wrote c m ((x :: xs).take (n + 1)))) =
        (see sh).put fd ((x :: xs).take (n + 1)) := by
      rw [see_wrote, View.put, hconn, hc]
    rw [hloop, hfirst, View.put_append, List.take_append_drop]
  · obtain rfl := goOn_inj h
    exact hloop _ _
  · next x xs hsome htook hintr =>
    obtain rfl := goOn_inj h
    have hnone : sh.conn fd = none := by
      cases hc : sh.conn fd with
      | none => rfl
      | some c =>
        cases hw : i.write with
        | took n => exact absurd hw (htook c n hc)
        | interrupted => exact absurd hw (hintr c hc)
        | failed => exact absurd hw hi.write
    rw [View.put, hconn, hnone]
    rfl

/-- Sending to a slot is done by `slot_send`. -/
theorem meaning_slotSend (s : Slot) (m : Message) (p : Code) (v : View) :
    (meaning env junk).code (slotSend s m ++ p) v = (meaning env junk).code p (v.send s m) := rfl

/-- What a router expands to means what the router means. -/
theorem meaning_route (sh : Shared) (s : Slot) (m : Message) :
    (meaning env junk).code (sh.route s m) (see sh) = (see sh).route env s m := by
  unfold Shared.route View.route
  cases m.kind with
  | none => rfl
  | some k =>
    cases k with
    | login =>
      change (meaning env junk).code (Shared.login s m) (see sh) = (see sh).login env s m
      unfold Shared.login View.login
      cases scanLogin m.payload.toList with
      | none => rfl
      | some up => rfl
    | broadcast =>
      change (meaning env junk).code (sh.broadcast s m) (see sh) = (see sh).broadcast env s m
      unfold Shared.broadcast View.broadcast
      have hactive : ((see sh).shared.clients s).active = (sh.clients s).active := rfl
      rw [hactive]
      split <;> rfl
    | priv =>
      change (meaning env junk).code (sh.priv s m) (see sh) = (see sh).priv env s m
      unfold Shared.priv View.priv
      have hactive : ((see sh).shared.clients s).active = (sh.clients s).active := rfl
      rw [hactive]
      split <;> rfl
    | _ => rfl

theorem meaning_sendActive {skip : Slot} {m : Message} {slots : List Slot}
    (h : exec t (.sendActive skip m slots) i sh = some out) :
    (meaning env junk).code out.next (see out.shared) = (see sh).sendActive skip m slots := by
  simp only [exec] at h
  split at h
  · obtain rfl := goOn_inj h
    rfl
  · next j slots =>
    have hactive : ((see sh).shared.clients j).active = (sh.clients j).active := rfl
    unfold View.sendActive
    rw [List.foldl_cons, hactive]
    split at h
    · next hj =>
      obtain rfl := goOn_inj h
      rw [if_pos hj]
      exact meaning_slotSend j m [.act (.sendActive skip m slots)] (see sh)
    · next hj =>
      obtain rfl := goOn_inj h
      rw [if_neg hj]
      rfl

theorem meaning_allot {fd c : Nat} (h : exec t (.allot fd c) i sh = some out) :
    (meaning env junk).code out.next (see out.shared) = (see sh).allot env fd := by
  have hfind : (see sh).shared.findFree = sh.findFree := rfl
  simp only [exec] at h
  unfold View.allot
  rw [hfind]
  cases hs : sh.findFree with
  | none =>
    simp only [hs] at h
    obtain rfl := goOn_inj h
    rfl
  | some s =>
    simp only [hs] at h
    obtain rfl := goOn_inj h
    rfl

theorem meaning_cleanup {s : Slot} (h : exec t (.cleanup s) i sh = some out)
    (hi : Smooth env junk i) :
    (meaning env junk).code out.next (see out.shared) = (see sh).cleanup env junk s := by
  obtain rfl := goOn_inj h
  have hactive : ((see sh).shared.clients s).active = (sh.clients s).active := rfl
  unfold View.cleanup
  rw [hi.junk, hactive]
  split <;> rfl

/-- No router accepts connections or receives messages. -/
theorem free_route (sh : Shared) (s : Slot) (m : Message) :
    (meaning env junk).Free (sh.route s m) := by
  intro b hb
  unfold Shared.route at hb
  split at hb
  · unfold Shared.login at hb
    split at hb <;> simp at hb <;> subst hb <;> rfl
  · simp [Shared.logout] at hb
    rcases hb with rfl | rfl <;> rfl
  · unfold Shared.broadcast at hb
    split at hb <;> simp at hb
    · subst hb
      rfl
    · rcases hb with rfl | rfl | rfl <;> rfl
  · unfold Shared.priv at hb
    split at hb <;> simp at hb <;> subst hb <;> rfl
  all_goals simp at hb
  · subst hb
    rfl
  · subst hb
    rfl
  · rcases hb with rfl | rfl <;> rfl
  · subst hb
    rfl

/-- A thread only comes to a stop at the end of its work. -/
theorem free_next (h : exec t a i sh = some out) (hstop : (meaning env junk).stop a = false) :
    (meaning env junk).Free out.next := by
  intro b hb
  cases a
  case accept => cases hstop
  case recv s => cases hstop
  case route s m =>
    obtain rfl := goOn_inj h
    exact free_route sh s m b hb
  all_goals simp only [exec] at h
  all_goals
    repeat' split at h
    all_goals cases h
    all_goals simp [slotSend] at hb
    all_goals
      first
        | (subst hb; rfl)
        | (rcases hb with rfl | rfl <;> rfl)
        | (rcases hb with rfl | rfl | rfl <;> rfl)

/-- Every act of a thread that goes on leaves its meaning to its expansion. -/
theorem meaning_sound :
    (meaning env junk).Sound see (fun _ _ i _ => Smooth env junk i) exec := by
  constructor
  · intro t a i sh out h hi hstop
    cases a with
    | accept => cases hstop
    | recv s => cases hstop
    | write fd m rest => exact meaning_write h hi
    | sendActive skip m slots => exact meaning_sendActive h
    | allot fd c => exact meaning_allot h
    | cleanup s => exact meaning_cleanup h hi
    | route s m =>
      obtain rfl := goOn_inj h
      exact meaning_route sh s m
    | refuse fd =>
      obtain rfl := goOn_inj h
      rw [hi.env]
      rfl
    | create s fd c =>
      simp only [exec, hi.created, if_true] at h
      obtain rfl := Option.some.inj h
      exact see_note rfl sh
    | abandon s =>
      obtain rfl := goOn_inj h
      rfl
    | closeFd fd =>
      obtain rfl := goOn_inj h
      exact see_close t fd
    | checkName s u p =>
      have hfind : (see sh).shared.findUser u = sh.findUser u := rfl
      simp only [exec] at h
      change _ = (see sh).checkName env s u p
      unfold View.checkName
      rw [hfind]
      split at h
      · next hu =>
        obtain rfl := goOn_inj h
        rw [if_pos hu]
        rfl
      · next hu =>
        obtain rfl := goOn_inj h
        rw [if_neg hu]
        rfl
    | validate s u p =>
      simp only [exec, hi.env] at h
      change _ = (see sh).validate env s u p
      unfold View.validate
      split at h
      · next hu =>
        obtain rfl := goOn_inj h
        rw [if_pos hu]
        rfl
      · next hu =>
        obtain rfl := goOn_inj h
        rw [if_neg hu]
        rfl
    | storeLogin s u =>
      obtain rfl := goOn_inj h
      rw [see_note rfl]
      rfl
    | findTarget s m =>
      have hfind : (see sh).shared.findUser m.receiver.toList =
          sh.findUser m.receiver.toList := rfl
      simp only [exec] at h
      change _ = (see sh).findTarget env s m
      unfold View.findTarget
      rw [hfind]
      cases hk : sh.findUser m.receiver.toList with
      | none =>
        simp only [hk] at h
        obtain rfl := goOn_inj h
        rfl
      | some k =>
        simp only [hk] at h
        obtain rfl := goOn_inj h
        rfl
    | bcastNote skip note =>
      obtain rfl := goOn_inj h
      rw [hi.env]
      rfl
    | saveHistory m receiver =>
      obtain rfl := goOn_inj h
      rw [hi.env]
      rfl
    | reply s make =>
      obtain rfl := goOn_inj h
      rw [hi.env]
      rfl
    | closeSocket s =>
      obtain rfl := goOn_inj h
      exact see_close t _
    | clear | listUsers | readHistory | setStatus | sendMessage =>
      obtain rfl := goOn_inj h
      rfl
  · exact fun h hstop => free_next h hstop

end ChatSystem.Thread

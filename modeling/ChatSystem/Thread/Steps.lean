import ChatSystem.Thread.Program

/-!
# What the acts of the threads do

An act makes one of few changes to the shared state. It expands to acts of its
own role: the accept loop, the service of a slot, sending, or the two acts that
end a session.
-/

namespace ChatSystem.Thread

open Tasks

variable {t : Tid} {a b : Act} {i : Input} {sh : Shared} {out : Outcome Lock Tid Act Shared}

/-- The changes an act can make to the shared state. -/
inductive Change (t : Tid) (sh : Shared) : Act → Shared → Prop
  | same (a : Act) : Change t sh a sh
  | accept {fd : Nat} (hfree : sh.conn fd = none) : Change t sh .accept (sh.accept fd)
  | fill {s : Slot} {fd c : Nat} (hfree : sh.findFree = some s) :
    Change t sh (.allot fd c) (sh.fill s fd)
  | start (s : Slot) (fd c : Nat) : Change t sh (.create s fd c) (sh.note (.started s c))
  | abandon (s : Slot) : Change t sh (.abandon s) (sh.abandon s)
  | closeFd (fd : Nat) : Change t sh (.closeFd fd) (sh.close t fd)
  | write {fd c : Nat} (m : Message) (rest bytes : List UInt8) (hc : sh.conn fd = some c) :
    Change t sh (.write fd m rest) (sh.note (.wrote c m bytes))
  | storeLogin (s : Slot) (u : List UInt8) :
    Change t sh (.storeLogin s u) ((sh.setEntry s ((sh.clients s).login u)).note (.loggedIn t u))
  | clear (s : Slot) : Change t sh (.clear s) (sh.setEntry s (sh.clients s).clear)
  | setStatus (s : Slot) (m : Message) (status : Nat) :
    Change t sh (.setStatus s m) (sh.setEntry s ((sh.clients s).setStatus status))
  | saveHistory (m : Message) (receiver : List UInt8) (history : History) :
    Change t sh (.saveHistory m receiver) { sh with history := history }
  | cleanup (s : Slot) : Change t sh (.cleanup s) (sh.release s)
  | closeSocket (s : Slot) :
    Change t sh (.closeSocket s) (sh.close t (sh.clients s).sockfd)

theorem goOn_inj {next : Code} (h : sh.goOn next = some out) :
    out = { shared := sh, next := next, spawn := none } :=
  (Option.some.inj h).symm

/-- Every act makes one of the changes. -/
theorem change_of_exec (h : exec t a i sh = some out) : Change t sh a out.shared := by
  cases a with
  | accept =>
    simp only [exec] at h
    split at h
    · obtain rfl := goOn_inj h
      exact .same _
    · split at h
      · next hfree =>
        obtain rfl := goOn_inj h
        exact .accept (Option.isNone_iff_eq_none.mp hfree)
      · cases h
  | allot fd c =>
    simp only [exec] at h
    split at h
    · obtain rfl := goOn_inj h
      exact .same _
    · next s hs =>
      obtain rfl := goOn_inj h
      exact .fill hs
  | create s fd c =>
    simp only [exec] at h
    split at h
    · obtain rfl := Option.some.inj h
      exact .start s fd c
    · obtain rfl := goOn_inj h
      exact .same _
  | write fd m rest =>
    simp only [exec] at h
    split at h
    · obtain rfl := goOn_inj h
      exact .same _
    · next c n hc _ =>
      obtain rfl := goOn_inj h
      exact .write m _ _ hc
    · obtain rfl := goOn_inj h
      exact .same _
    · obtain rfl := goOn_inj h
      exact .same _
  | recv s =>
    simp only [exec] at h
    split at h
    · split at h <;> obtain rfl := goOn_inj h <;> exact .same _
    · obtain rfl := goOn_inj h
      exact .same _
  | sendActive skip m slots =>
    simp only [exec] at h
    split at h
    · obtain rfl := goOn_inj h
      exact .same _
    · split at h <;> obtain rfl := goOn_inj h <;> exact .same _
  | checkName s u p =>
    simp only [exec] at h
    split at h <;> obtain rfl := goOn_inj h <;> exact .same _
  | validate s u p =>
    simp only [exec] at h
    split at h <;> obtain rfl := goOn_inj h <;> exact .same _
  | findTarget s m =>
    simp only [exec] at h
    split at h <;> obtain rfl := goOn_inj h <;> exact .same _
  | abandon s =>
    obtain rfl := goOn_inj h
    exact .abandon s
  | closeFd fd =>
    obtain rfl := goOn_inj h
    exact .closeFd fd
  | storeLogin s u =>
    obtain rfl := goOn_inj h
    exact .storeLogin s u
  | clear s =>
    obtain rfl := goOn_inj h
    exact .clear s
  | setStatus s m =>
    obtain rfl := goOn_inj h
    exact .setStatus s m _
  | saveHistory m receiver =>
    obtain rfl := goOn_inj h
    exact .saveHistory m receiver _
  | cleanup s =>
    obtain rfl := goOn_inj h
    exact .cleanup s
  | closeSocket s =>
    obtain rfl := goOn_inj h
    exact .closeSocket s
  | refuse | route | bcastNote | listUsers | readHistory | reply | sendMessage =>
    obtain rfl := goOn_inj h
    exact .same _

/-- Only `pthread_create` starts a thread. -/
theorem spawn_eq_some {u : Tid} {p : Code} (h : exec t a i sh = some out)
    (hp : out.spawn = some (u, p)) : ∃ s fd c, a = .create s fd c ∧ u = .client s c ∧
      p = clientThread s ∧ out.shared = sh.note (.started s c) ∧ out.next = [] := by
  cases a
  case create s fd c =>
    simp only [exec] at h
    split at h
    · obtain rfl := Option.some.inj h
      obtain ⟨rfl, rfl⟩ := Prod.mk.inj (Option.some.inj hp)
      exact ⟨s, fd, c, rfl, rfl, rfl, rfl, rfl⟩
    · obtain rfl := goOn_inj h
      cases hp
  all_goals
    simp only [exec] at h
    repeat' split at h
    all_goals cases h
    all_goals cases hp

/-! ## Roles -/

/-- Where an act stands in the life of its thread. -/
inductive Role
  | accepting
  | serving (s : Slot)
  | sending
  | leaving
  | closing
  deriving DecidableEq

/-- The role of an act. -/
def Act.role : Act → Role
  | .accept | .allot _ _ | .create _ _ _ | .abandon _ | .closeFd _ => .accepting
  | .recv s | .route s _ | .checkName s _ _ | .validate s _ _ | .storeLogin s _ | .clear s
  | .findTarget s _ | .listUsers s _ | .readHistory s _ | .setStatus s _ => .serving s
  | .refuse _ | .write _ _ _ | .bcastNote _ _ | .sendActive _ _ _ | .saveHistory _ _ | .reply _ _
  | .sendMessage _ _ => .sending
  | .cleanup _ => .leaving
  | .closeSocket _ => .closing

/-- All acts of a piece of code have a role that passes a test. -/
def AllRoles (P : Role → Prop) (p : Code) : Prop := ∀ a, .act a ∈ p → P a.role

/-- Code that only sends. -/
def Sending (p : Code) : Prop := AllRoles (· = .sending) p

/-- Code that serves a slot or sends. -/
def Serving (s : Slot) (p : Code) : Prop := AllRoles (fun r => r = .serving s ∨ r = .sending) p

section AllRoles

variable {P : Role → Prop} {p q : Code}

@[simp] theorem allRoles_nil : AllRoles P [] := by
  intro a h
  cases h

@[simp] theorem allRoles_lock (l : Lock) : AllRoles P (.lock l :: p) ↔ AllRoles P p := by
  simp [AllRoles]

@[simp] theorem allRoles_unlock (l : Lock) : AllRoles P (.unlock l :: p) ↔ AllRoles P p := by
  simp [AllRoles]

@[simp] theorem allRoles_act : AllRoles P (.act a :: p) ↔ P a.role ∧ AllRoles P p := by
  simp [AllRoles]

@[simp] theorem allRoles_append : AllRoles P (p ++ q) ↔ AllRoles P p ∧ AllRoles P q := by
  simp only [AllRoles, List.mem_append]
  constructor
  · intro h
    exact ⟨fun a ha => h a (Or.inl ha), fun a ha => h a (Or.inr ha)⟩
  · rintro ⟨hp, hq⟩ a (ha | ha)
    · exact hp a ha
    · exact hq a ha

theorem AllRoles.tail {x : Stmt Lock Act} (h : AllRoles P (x :: p)) : AllRoles P p :=
  fun a ha => h a (List.mem_cons_of_mem _ ha)

theorem Sending.serving (h : Sending p) (s : Slot) : Serving s p := fun a ha => Or.inr (h a ha)

theorem sending_slotSend (s : Slot) (m : Message) : Sending (slotSend s m) := by
  simp [Sending, slotSend, Act.role]

end AllRoles

/-- A sending act expands to sending. -/
theorem sending_next (h : exec t a i sh = some out) (ha : a.role = .sending) :
    Sending out.next := by
  cases a <;> cases ha <;> simp only [exec] at h
  case write fd m rest =>
    split at h <;> obtain rfl := goOn_inj h <;> simp [Sending, Act.role]
  case sendActive skip m slots =>
    split at h
    · obtain rfl := goOn_inj h
      simp [Sending]
    · split at h <;> obtain rfl := goOn_inj h <;> simp [Sending, slotSend, Act.role]
  case reply s make =>
    obtain rfl := goOn_inj h
    exact sending_slotSend _ _
  all_goals
    obtain rfl := goOn_inj h
    simp [Sending, Act.role]

theorem serving_route (sh : Shared) (s : Slot) (m : Message) : Serving s (sh.route s m) := by
  unfold Shared.route
  split
  · unfold Shared.login
    split <;> simp [Serving, Act.role]
  · simp [Shared.logout, Serving, Act.role]
  · unfold Shared.broadcast
    split <;> simp [Serving, Act.role]
  · unfold Shared.priv
    split <;> simp [Serving, Act.role]
  all_goals simp [Serving, Act.role]

/-- An act that serves a slot expands to serving that slot. -/
theorem serving_next {s : Slot} (h : exec t a i sh = some out) (ha : a.role = .serving s) :
    Serving s out.next := by
  cases a <;> cases ha <;> simp only [exec] at h
  case recv =>
    split at h
    · split at h <;> obtain rfl := goOn_inj h <;> simp [Serving, Act.role]
    · obtain rfl := goOn_inj h
      simp [Serving]
  case route m =>
    obtain rfl := goOn_inj h
    exact serving_route sh s m
  case findTarget m =>
    split at h <;> obtain rfl := goOn_inj h <;> simp [Serving, slotSend, Act.role]
  case checkName | validate =>
    split at h <;> obtain rfl := goOn_inj h <;> simp [Serving, Act.role]
  all_goals
    obtain rfl := goOn_inj h
    simp [Serving, Act.role]

/-- The cleanup of a thread expands to sending. -/
theorem leaving_next (h : exec t a i sh = some out) (ha : a.role = .leaving) :
    Sending out.next := by
  cases a <;> cases ha
  obtain rfl := goOn_inj h
  simp only [Sending, allRoles_append]
  split <;> simp [Act.role]

end ChatSystem.Thread

import ChatSystem.Epoll.Delivery
import ChatSystem.Epoll.Framing
import ChatSystem.Server.Posts

/-!
# Broadcasts of the epoll server

A broadcast is routed in one call of `process_message`, which sends it to the other active
slots one after the other. In the trace, its copies stand between its processing and the next
input.
-/

namespace ChatSystem.Epoll

open Reassembly Relay Transition

/-! ## Posts and copies -/

/-- A broadcast is processed. -/
def Event.isPost : Event → Bool
  | .processed _ m => m.kind = some .broadcast
  | _ => false

/-- The broadcast an event starts, and the connection it came from. -/
def Event.post : Event → Option (Option Nat × Message)
  | .processed c m => if m.kind = some .broadcast then some (c, m) else none
  | _ => none

/-- The last input was a broadcast. -/
def relaying : Bool → List Event → Bool
  | b, [] => b
  | b, .queued _ _ _ :: log => relaying b log
  | _, e :: log => relaying e.isPost log

/-- The broadcasts of a trace, their copies and the other messages kept for connections. -/
def transcript : Bool → List Event → List (Item Nat Message)
  | _, [] => []
  | b, .queued none _ _ :: log => transcript b log
  | b, .queued (some c) m n :: log =>
    (if dropped (m, n) then []
      else if b && m.kind = some .broadcast then [.copy c m] else [.other c m]) ++ transcript b log
  | _, e :: log => (if e.isPost then [.post] else []) ++ transcript e.isPost log

/-- What a connection gets, with the numbers of the broadcasts. -/
def inboxOf (c : Nat) (log : List Event) : List (Option Nat × Message) :=
  inbox c 0 (transcript false log)

/-- A broadcast is routed. -/
def Server.post (a : Server) (s : Slot) (m : Message) : Post where
  slot := s
  origin := a.connOf s
  message := m
  active j := (a.clients j).active
  conn := a.connOf

/-- The broadcasts `process_message` is called with in the processing loop. -/
def postsFrom (env : Env) (s : Slot) (srv : Server) : List Post :=
  if _h : srv.Complete s then
    (match unpackMessage (srv.front s) with
      | some m => if m.kind = some .broadcast then [srv.post s m] else []
      | none => []) ++
      postsFrom env s ((srv.dispatch env s (srv.front s)).consume s (srv.total s))
  else []
termination_by (srv.clients s).rbufLen.toNat
decreasing_by
  have hlen : headerSize ≤ (srv.clients s).rbufLen := _h.1
  have hpos : 0 < headerSize := by decide
  have htotal : headerSize ≤ srv.total s := Nat.le_add_right ..
  have hnonneg : 0 ≤ (srv.clients s).rbufLen := by omega
  have hle := rbufLen_dispatch_le hnonneg env (srv.front s)
  rw [Server.rbufLen_consume]
  omega

/-- The broadcasts routed while an event is handled. -/
def postsOf (srv : Server) (l : Label) : List Post :=
  let srv := srv.prescribe l.writes
  match l.action with
  | .readable fd b =>
    match srv.findByFd fd, b.ending with
    | some s, .again =>
      if (readLoop (srv.clients s) b.data b.sizes).1 then [] else postsFrom l.env s (srv.filled s b)
    | _, _ => []
  | _ => []

/-- The broadcasts of a run, in the order in which they are routed. -/
def posts (srv : Server) (ls : List Label) : List Post := collect step postsOf srv ls

variable {srv t a b c' : Server} {env : Env} {s : Slot} {m : Message} {c : Nat} {ps : List Post}
  {log evs : List Event}

/-! ## Traces -/

theorem relaying_append (b : Bool) (l k : List Event) :
    relaying b (l ++ k) = relaying (relaying b l) k := by
  induction l generalizing b with
  | nil => rfl
  | cons e l ih => cases e <;> exact ih _

theorem transcript_append (b : Bool) (l k : List Event) :
    transcript b (l ++ k) = transcript b l ++ transcript (relaying b l) k := by
  induction l generalizing b with
  | nil => rfl
  | cons e l ih =>
    cases e with
    | queued c m n =>
      cases c with
      | none => exact ih b
      | some c => simp only [List.cons_append, transcript, relaying, ih, List.append_assoc]
    | _ => simp only [List.cons_append, transcript, relaying, ih, List.append_assoc]

theorem transcript_post {e : Event} (he : e.isPost = true) (b : Bool) :
    transcript b [e] = [.post] := by
  cases e with
  | processed c m => simp [transcript, he]
  | _ => cases he

/-- What a connection gets are the messages kept for it. -/
theorem map_snd_inbox (c n : Nat) (b : Bool) (log : List Event) :
    (inbox c n (transcript b log)).map Prod.snd = keptFor c log := by
  induction log generalizing n b with
  | nil => rfl
  | cons e log ih =>
    have hcons : keptFor c (e :: log) = keptFor c [e] ++ keptFor c log := keptFor_append c [e] log
    rw [hcons]
    cases e with
    | queued d m k =>
      cases d with
      | none =>
        rw [keptFor_queued_ne (by simp)]
        exact ih n b
      | some d =>
        by_cases hd : d = c
        · subst hd
          rw [keptFor_queued, transcript]
          by_cases hdrop : dropped (m, k) = true
          · simp only [if_pos hdrop, List.nil_append]
            exact ih n b
          · by_cases hb : (b && decide (m.kind = some .broadcast)) = true
            · simp [hdrop, hb, inbox, ih]
            · simp [hdrop, hb, inbox, ih]
        · rw [keptFor_queued_ne (by simpa using hd), transcript]
          by_cases hdrop : dropped (m, k) = true
          · simp only [if_pos hdrop, List.nil_append]
            exact ih n b
          · by_cases hb : (b && decide (m.kind = some .broadcast)) = true
            · simp [hdrop, hb, inbox, ih, hd]
            · simp [hdrop, hb, inbox, ih, hd]
    | processed d m =>
      by_cases hp : (Event.processed d m).isPost = true
      · simp only [transcript, if_pos hp, List.singleton_append, inbox]
        exact ih _ _
      · simp only [transcript, if_neg hp, List.nil_append]
        exact ih _ _
    | _ => exact ih _ _

/-! ## Operations without broadcasts -/

/-- No broadcast is processed, and none but one of the server is queued. -/
def Event.Calm : Event → Prop
  | .processed _ m => m.kind ≠ some .broadcast
  | .queued _ m _ => m.kind = some .broadcast → IsNotice m
  | _ => True

/-- The trace grows by calm events. -/
def Silent (a b : Server) : Prop := ∃ evs, b.log = a.log ++ evs ∧ ∀ e ∈ evs, e.Calm

/-- Whatever happened before, the trace grows neither by a broadcast nor by a copy. -/
def Plain (a b : Server) : Prop :=
  ∃ evs, b.log = a.log ++ evs ∧ (∀ e ∈ evs, e.Calm) ∧ ∀ f, ∀ x ∈ transcript f evs, IsOwn x

theorem Event.Calm.isPost {e : Event} (h : e.Calm) : e.isPost = false := by
  cases e with
  | processed c m => exact decide_eq_false h
  | _ => rfl

/-- An input that is no broadcast is calm. -/
theorem calm_of_input {e : Event} (he : e.isInput = true) (hp : e.isPost = false) : e.Calm := by
  cases e with
  | processed c m => exact of_decide_eq_false hp
  | queued c m n => cases he
  | _ => trivial

/-- Without a broadcast there are no copies. -/
theorem isOwn_of_calm (h : ∀ e ∈ evs, e.Calm) : ∀ x ∈ transcript false evs, IsOwn x := by
  induction evs with
  | nil => exact fun x hx => (by cases hx)
  | cons e evs ih =>
    have hrest := ih fun k hk => h k (List.mem_cons_of_mem _ hk)
    have hcalm := h e List.mem_cons_self
    have hpost := hcalm.isPost
    cases e with
    | queued c m n =>
      cases c with
      | none => exact hrest
      | some c =>
        intro x hx
        rcases List.mem_append.mp hx with hx | hx
        · split at hx
          · cases hx
          · exact ⟨c, m, by simpa using hx, hcalm⟩
        · exact hrest x hx
    | _ =>
      simp only [transcript, hpost]
      exact hrest

theorem Silent.refl (a : Server) : Silent a a := ⟨[], by simp, fun e he => (by cases he)⟩

theorem Silent.trans (h : Silent a b) (k : Silent b c') : Silent a c' := by
  obtain ⟨l, hl, hp⟩ := h
  obtain ⟨l', hl', hp'⟩ := k
  refine ⟨l ++ l', by rw [hl', hl, List.append_assoc], fun e he => ?_⟩
  rcases List.mem_append.mp he with he | he
  · exact hp e he
  · exact hp' e he

theorem silent_of_log (h : b.log = a.log) : Silent a b :=
  ⟨[], by simpa using h, fun e he => (by cases he)⟩

theorem silent_note {e : Event} (he : e.isInput = true) (hp : e.isPost = false) (a : Server) :
    Silent a (a.note e) :=
  ⟨[e], rfl, fun _ hk => List.mem_singleton.mp hk ▸ calm_of_input he hp⟩

theorem silent_slotSend (a : Server) (s : Slot) {m : Message}
    (hm : m.kind = some .broadcast → IsNotice m) : Silent a (a.slotSend s m) :=
  ⟨_, log_slotSend a s m, fun e he => (by rw [List.mem_singleton.mp he]; exact hm)⟩

theorem silent_bcastNote (a : Server) (env : Env) (s : Slot) (note : List UInt8) :
    Silent a (a.bcastNote env s note) :=
  Server.sendOthers_invariant (P := Silent a)
    (fun b i h => h.trans (silent_slotSend b i fun _ => ⟨_, _, rfl⟩)) (Silent.refl a)

theorem Silent.disconnectClient (h : Silent a b) (env : Env) (s : Slot) :
    Silent a (b.disconnectClient env s) := by
  refine h.trans ?_
  unfold Server.disconnectClient
  split
  · exact Silent.refl _
  · refine Silent.trans ?_ (silent_of_log rfl)
    have hnote : Silent b (b.note (.closed (b.connOf s))) := silent_note rfl rfl b
    split
    · exact hnote.trans (silent_bcastNote ..)
    · exact hnote

theorem Plain.refl (a : Server) : Plain a a :=
  ⟨[], by simp, fun e he => (by cases he), fun f x hx => (by cases hx)⟩

theorem Plain.trans (h : Plain a b) (k : Plain b c') : Plain a c' := by
  obtain ⟨l, hl, hp, ht⟩ := h
  obtain ⟨l', hl', hp', ht'⟩ := k
  refine ⟨l ++ l', by rw [hl', hl, List.append_assoc], fun e he => ?_, fun f x hx => ?_⟩
  · rcases List.mem_append.mp he with he | he
    · exact hp e he
    · exact hp' e he
  · rw [transcript_append] at hx
    rcases List.mem_append.mp hx with hx | hx
    · exact ht f x hx
    · exact ht' _ x hx

theorem plain_of_log (h : b.log = a.log) : Plain a b :=
  ⟨[], by simpa using h, fun e he => (by cases he), fun f x hx => (by cases hx)⟩

/-- Behind an input that is no broadcast nothing is a copy. -/
theorem Silent.plain {e : Event} (he : e.isInput = true) (hp : e.isPost = false)
    (h : Silent (a.note e) b) : Plain a b := by
  obtain ⟨evs, hlog, hevs⟩ := h
  refine ⟨e :: evs, by rw [hlog, Server.note, List.append_assoc]; rfl, fun k hk => ?_, fun f => ?_⟩
  · rcases List.mem_cons.mp hk with rfl | hk
    · exact calm_of_input he hp
    · exact hevs k hk
  · have hrest := isOwn_of_calm hevs
    cases e with
    | queued c m n => cases he
    | _ =>
      simp only [transcript, hp]
      exact hrest

/-- Another message than a broadcast. -/
theorem plain_slotSend (a : Server) (s : Slot) {m : Message} (hm : m.kind ≠ some .broadcast) :
    Plain a (a.slotSend s m) := by
  have hcalm : m.kind = some .broadcast → IsNotice m := fun h => absurd h hm
  refine ⟨_, log_slotSend a s m, fun e he => (by rw [List.mem_singleton.mp he]; exact hcalm), ?_⟩
  intro f x hx
  cases hc : a.connOf s with
  | none =>
    rw [hc] at hx
    cases hx
  | some c =>
    rw [hc] at hx
    simp only [transcript, hm, decide_false, Bool.and_false, List.append_nil] at hx
    split at hx
    · cases hx
    · exact ⟨c, m, by simpa using hx, hcalm⟩

/-- Releasing a slot. -/
theorem plain_disconnectClient (a : Server) (env : Env) (s : Slot) :
    Plain a (a.disconnectClient env s) := by
  by_cases hu : (a.clients s).inUse = true
  · have hnote : Silent (a.note (.closed (a.connOf s))) (a.disconnectClient env s) := by
      unfold Server.disconnectClient
      rw [if_neg (by simpa using hu)]
      refine Silent.trans ?_ (silent_of_log rfl)
      split
      · exact silent_bcastNote ..
      · exact Silent.refl _
    exact hnote.plain rfl rfl
  · rw [Bool.not_eq_true] at hu
    rw [disconnectClient_of_not_inUse hu]
    exact Plain.refl a

theorem silent_logout (a : Server) (env : Env) (s : Slot) : Silent a (a.logout env s) := by
  refine Silent.disconnectClient ?_ env s
  have hclear : Silent a (a.setEntry s (a.clients s).clear) := silent_of_log rfl
  exact hclear.trans (silent_bcastNote ..)

/-- A reply is no broadcast. -/
theorem silent_reply (a : Server) (s : Slot) {m : Message} (hm : m.kind ≠ some .broadcast) :
    Silent a (a.slotSend s m) :=
  silent_slotSend a s fun h => absurd h hm

theorem silent_login (a : Server) (env : Env) (s : Slot) (m : Message) :
    Silent a (a.login env s m) := by
  unfold Server.login
  split
  · exact silent_reply a s (by simp [badLogin])
  · split
    · exact silent_reply a s (by simp [alreadyLoggedIn])
    · split
      · exact silent_reply a s (by simp [invalidCredentials])
      · refine Silent.trans ?_ (silent_reply _ s (by simp [loginSuccessful]))
        exact silent_of_log rfl

theorem silent_priv (a : Server) (env : Env) (s : Slot) (hm : m.kind = some .priv) :
    Silent a (a.priv env s m) := by
  have hkind : m.kind ≠ some .broadcast := by simp [hm]
  unfold Server.priv
  split
  · exact silent_reply a s (by simp [notAuthenticated])
  · split
    · exact silent_reply a s (by simp [userNotOnline])
    · refine Silent.trans (Silent.trans ?_ (silent_reply _ _ hkind))
        (silent_reply _ s (by simp [relayed]))
      exact silent_of_log rfl

/-- Any other request than a broadcast. -/
theorem plain_processMessage (a : Server) (env : Env) (s : Slot) {m : Message}
    (hm : m.kind ≠ some .broadcast) : Plain a (a.processMessage env s m) := by
  have hpost : (Event.processed (a.connOf s) m).isPost = false := decide_eq_false hm
  refine Silent.plain rfl hpost ?_
  unfold Server.processMessage
  simp only
  split
  · exact silent_login ..
  · exact silent_logout ..
  · next h => exact absurd h hm
  · next h => exact silent_priv _ env s h
  · exact silent_reply _ s (by simp [userList])
  · exact silent_reply _ s (by simp [historyResponse])
  · refine Silent.trans ?_ (silent_reply _ s (by simp [statusUpdated]))
    exact silent_of_log rfl
  · exact silent_reply _ s (by simp [unknownType])

/-! ## The books -/

/-- The trace is an orderly transcript of the posts. -/
structure Books (ps : List Post) (srv : Server) : Prop where
  orderly : ∃ o, Orderly Post.Reaches ps (transcript false srv.log) o
  entries : ps.map (fun p => (p.origin, p.message)) = srv.log.filterMap Event.post
  own : ∀ c m, .other c m ∈ transcript false srv.log → m.kind = some .broadcast → IsNotice m

theorem filterMap_post (h : ∀ e ∈ evs, e.isPost = false) : evs.filterMap Event.post = [] := by
  rw [List.filterMap_eq_nil_iff]
  intro e he
  have hpost := h e he
  cases e with
  | processed c m =>
    rw [Event.post, if_neg]
    simpa [Event.isPost] using hpost
  | _ => rfl

theorem Books.plain (h : Books ps a) (hab : Plain a b) : Books ps b := by
  obtain ⟨evs, hlog, hcalm, hother⟩ := hab
  obtain ⟨o, ho⟩ := h.orderly
  refine ⟨⟨o, ?_⟩, ?_, fun c m hm => ?_⟩
  · rw [hlog, transcript_append]
    refine ho.others fun x hx => ?_
    obtain ⟨c, m, hx, -⟩ := hother _ x hx
    exact ⟨c, m, hx⟩
  · rw [hlog, List.filterMap_append, filterMap_post fun e he => (hcalm e he).isPost, List.append_nil]
    exact h.entries
  · rw [hlog, transcript_append] at hm
    rcases List.mem_append.mp hm with hm | hm
    · exact h.own c m hm
    · obtain ⟨c', m', he, hown⟩ := hother _ _ hm
      cases he
      exact hown

/-- The other active slots. -/
def Server.others (a : Server) (s : Slot) : List Slot :=
  (List.finRange maxClients).filter fun j => j ≠ s ∧ (a.clients j).active

/-- The loop sends to the other active slots, one after the other. -/
theorem log_sendOthers (a : Server) (s : Slot) (m : Message) :
    ∃ evs, (a.sendOthers s m).log = a.log ++ evs ∧
      List.Forall₂ (fun j e => ∃ n, e = .queued (a.connOf j) m n) (a.others s) evs := by
  have hall : ∀ (is : List Slot) (b : Server), OutputOnly a b →
      ∃ evs, (is.foldl (fun srv i => if i ≠ s ∧ (srv.clients i).active then srv.slotSend i m
        else srv) b).log = b.log ++ evs ∧
          List.Forall₂ (fun j e => ∃ n, e = .queued (a.connOf j) m n)
            (is.filter fun j => j ≠ s ∧ (a.clients j).active) evs := by
    intro is
    induction is with
    | nil => exact fun b hb => ⟨[], by simp, .nil⟩
    | cons i is ih =>
      intro b hb
      have hactive : (b.clients i).active = (a.clients i).active :=
        congrArg Entry.active (hb.entry i)
      rw [List.foldl_cons]
      by_cases hi : i ≠ s ∧ (a.clients i).active = true
      · rw [if_pos (by rwa [hactive]), List.filter_cons_of_pos (by simpa using hi)]
        obtain ⟨evs, hlog, hevs⟩ := ih _ (hb.trans (OutputOnly.slotSend b i m))
        refine ⟨.queued (a.connOf i) m (b.clients i).sbuf.pending.length :: evs, ?_,
          .cons ⟨_, rfl⟩ hevs⟩
        rw [hlog, log_slotSend, hb.connOf, List.append_assoc]
        rfl
      · rw [if_neg (by rwa [hactive]), List.filter_cons_of_neg (by simpa using hi)]
        exact ih b hb
  exact hall _ a (OutputOnly.refl a)

theorem silent_of_copies {js : List Slot}
    (h : List.Forall₂ (fun j e => ∃ n, e = .queued (a.connOf j) m n) js evs) :
    ∀ e ∈ evs, e.isPost = false := by
  induction h with
  | nil => exact fun e he => (by cases he)
  | cons hq _ ih =>
    obtain ⟨n, rfl⟩ := hq
    intro e he
    rcases List.mem_cons.mp he with rfl | he
    · rfl
    · exact ih e he

/-- The loop hands over copies only. -/
theorem not_mem_copies (hm : m.kind = some .broadcast) {js : List Slot}
    (h : List.Forall₂ (fun j e => ∃ n, e = .queued (a.connOf j) m n) js evs) (c : Nat)
    (m' : Message) : .other c m' ∉ transcript true evs := by
  induction h with
  | nil => exact fun hx => (by cases hx)
  | @cons j e js evs hq _ ih =>
    obtain ⟨n, rfl⟩ := hq
    cases hc : a.connOf j with
    | none => exact ih
    | some d =>
      intro hx
      rcases List.mem_append.mp hx with hx | hx
      · split at hx
        · cases hx
        · rw [if_pos (by simpa using hm)] at hx
          cases List.mem_singleton.mp hx
      · exact ih hx

/-- Copies for slots that have none yet are in order. -/
theorem orderly_copies (h : OutputOk a) (hm : m.kind = some .broadcast) {js : List Slot}
    (hjs : js.Nodup) (hactive : ∀ j ∈ js, j ≠ s ∧ (a.clients j).active = true)
    (hevs : List.Forall₂ (fun j e => ∃ n, e = .queued (a.connOf j) m n) js evs)
    {xs : List (Item Nat Message)} {ds : List Nat}
    (ho : Orderly Post.Reaches ps xs (some (a.post s m, ds)))
    (hnew : ∀ j ∈ js, ∀ d ∈ ds, a.connOf j ≠ some d) :
    ∃ ds', Orderly Post.Reaches ps (xs ++ transcript true evs) (some (a.post s m, ds')) := by
  induction hevs generalizing xs ds with
  | nil => exact ⟨ds, by simpa [transcript] using ho⟩
  | @cons j e js evs he hevs ih =>
    obtain ⟨n, rfl⟩ := he
    obtain ⟨hj, hjs⟩ := List.nodup_cons.mp hjs
    have hrest : ∀ i ∈ js, i ≠ s ∧ (a.clients i).active = true :=
      fun i hi => hactive i (List.mem_cons_of_mem _ hi)
    have hold : ∀ i ∈ js, ∀ d ∈ ds, a.connOf i ≠ some d :=
      fun i hi => hnew i (List.mem_cons_of_mem _ hi)
    cases hc : a.connOf j with
    | none => exact ih hjs hrest ho hold
    | some d =>
      rw [transcript, ← List.append_assoc]
      by_cases hdrop : dropped (m, n) = true
      · rw [if_pos hdrop, List.append_nil]
        exact ih hjs hrest ho hold
      · rw [if_neg hdrop, if_pos (by simpa using hm)]
        have hreach : (a.post s m).Reaches d m := by
          refine ⟨rfl, fun hs => ?_, j, (hactive j List.mem_cons_self).1,
            (hactive j List.mem_cons_self).2, hc⟩
          exact (hactive j List.mem_cons_self).1 (h.inj j s d hc hs)
        have hfresh : d ∉ ds := fun hd => hnew j List.mem_cons_self d hd hc
        refine ih hjs hrest (ho.copy hreach hfresh) fun i hi d' hd' => ?_
        rcases List.mem_append.mp hd' with hd' | hd'
        · exact hold i hi d' hd'
        · obtain rfl := List.mem_singleton.mp hd'
          intro hi'
          exact hj (h.inj i j d' hi' hc ▸ hi)

/-- A broadcast is entered, with its copies. -/
theorem Books.broadcast (h : Books ps a) (hout : OutputOk a) (hm : m.kind = some .broadcast)
    (env : Env) (s : Slot) : Books (ps ++ [a.post s m]) (a.processMessage env s m) := by
  obtain ⟨o, ho⟩ := h.orderly
  have hpost : (Event.processed (a.connOf s) m).isPost = true := by
    simpa [Event.isPost] using hm
  have hnoted : Orderly Post.Reaches (ps ++ [a.post s m])
      (transcript false (a.note (.processed (a.connOf s) m)).log) (some (a.post s m, [])) := by
    rw [Server.note, transcript_append, transcript_post hpost]
    exact .post _ ho
  have hentry : (ps ++ [a.post s m]).map (fun p => (p.origin, p.message)) =
      (a.note (.processed (a.connOf s) m)).log.filterMap Event.post := by
    rw [Server.note, List.filterMap_append, ← h.entries]
    simp [Event.post, hm, Server.post]
  have hnotedOwn : ∀ c m', .other c m' ∈ transcript false
      (a.note (.processed (a.connOf s) m)).log → m'.kind = some .broadcast → IsNotice m' := by
    intro c m' hm'
    rw [Server.note, transcript_append, transcript_post hpost, List.mem_append] at hm'
    rcases hm' with hm' | hm'
    · exact h.own c m' hm'
    · cases List.mem_singleton.mp hm'
  by_cases hactive : (a.clients s).active = true
  · rw [processMessage_broadcast hactive hm]
    obtain ⟨evs, hlog, hevs⟩ := log_sendOthers (a.relaying env s m []) s m
    have hrelaying : relaying false (a.note (.processed (a.connOf s) m)).log = true := by
      rw [Server.note, relaying_append]
      exact hpost
    obtain ⟨ds, hcopies⟩ := orderly_copies hout hm
      ((List.nodup_finRange maxClients).filter _)
      (fun j hj => of_decide_eq_true (List.mem_filter.mp hj).2) hevs hnoted
      (fun _ _ _ hd => (by cases hd))
    have hbooks : Books (ps ++ [a.post s m]) ((a.relaying env s m []).sendOthers s m) := by
      refine ⟨⟨some (a.post s m, ds), ?_⟩, ?_, fun c m' hm' => ?_⟩
      · rw [hlog, transcript_append]
        change Orderly _ _ (_ ++ transcript (relaying false
          (a.note (.processed (a.connOf s) m)).log) evs) _
        rw [hrelaying]
        exact hcopies
      · rw [hlog, List.filterMap_append, filterMap_post (silent_of_copies hevs), List.append_nil]
        exact hentry
      · rw [hlog, transcript_append] at hm'
        rcases List.mem_append.mp hm' with hm' | hm'
        · exact hnotedOwn c m' hm'
        · change _ ∈ transcript (relaying false
            (a.note (.processed (a.connOf s) m)).log) evs at hm'
          rw [hrelaying] at hm'
          exact absurd hm' (not_mem_copies hm hevs c m')
    exact hbooks.plain (plain_slotSend _ s (by simp [relayed]))
  · have hbooks : Books (ps ++ [a.post s m]) (a.note (.processed (a.connOf s) m)) :=
      ⟨⟨_, hnoted⟩, hentry, hnotedOwn⟩
    refine hbooks.plain ?_
    rw [Server.processMessage]
    simp only [hm]
    rw [Server.broadcast, if_pos (by
      change (!(a.clients s).active) = true
      simpa using hactive)]
    exact plain_slotSend _ s (by simp [notAuthenticated])

/-! ## One event -/

/-- One turn of the processing loop enters the broadcast it finds. -/
theorem Books.dispatch (h : Books ps a) (hout : OutputOk a) (env : Env) (s : Slot)
    (f : List UInt8) : Books (ps ++ match unpackMessage f with
      | some m => if m.kind = some .broadcast then [a.post s m] else []
      | none => []) (a.dispatch env s f) := by
  unfold Server.dispatch
  cases unpackMessage f with
  | none => simpa using h
  | some m =>
    simp only
    by_cases hm : m.kind = some .broadcast
    · rw [if_pos hm]
      exact h.broadcast hout hm env s
    · rw [if_neg hm, List.append_nil]
      exact h.plain (plain_processMessage a env s hm)

/-- The processing loop enters the broadcasts it calls `process_message` with. -/
theorem books_parseLoop (env : Env) (s : Slot) (srv : Server)
    (hin : (srv.clients s).inUse = true ∨ (srv.clients s).rbufLen < headerSize)
    (hout : OutputOk srv) (h : Books ps srv) :
    Books (ps ++ postsFrom env s srv) (parseLoop env s srv) := by
  fun_induction parseLoop env s srv generalizing ps with
  | case1 srv c =>
    rename_i hlen
    have hc : ¬ srv.Complete s := fun hc => absurd hc.1 (Int.not_le.mpr hlen)
    rw [postsFrom, dif_neg hc, List.append_nil]
    exact h
  | case2 srv c hlen plen =>
    rename_i hplen
    have hc : ¬ srv.Complete s :=
      fun hc => absurd (Nat.le_of_add_le_add_left hc.2.1) (Nat.not_le.mpr hplen)
    rw [postsFrom, dif_neg hc, List.append_nil]
    exact h.plain (plain_disconnectClient srv env s)
  | case3 srv c hlen plen hplen total =>
    rename_i htotal
    have hc : ¬ srv.Complete s := fun hc => absurd hc.2.2 (Int.not_le.mpr htotal)
    rw [postsFrom, dif_neg hc, List.append_nil]
    exact h
  | case4 srv c hlen plen hplen total htotal =>
    rename_i ih
    have hc : srv.Complete s :=
      ⟨Int.not_lt.mp hlen, Nat.add_le_add_left (Nat.not_lt.mp hplen) _, Int.not_lt.mp htotal⟩
    have hu : (srv.clients s).inUse = true := hin.resolve_right hlen
    have hturn : Epoll.Turn env s srv ((srv.dispatch env s (srv.front s)).consume s (srv.total s)) :=
      .next .first hc
    rw [postsFrom, dif_pos hc, ← List.append_assoc]
    refine ih (hturn.inUse hu) (outputOk_closed.handled.turn hu hout hturn) ?_
    exact (h.dispatch hout env s (srv.front s)).plain (plain_of_log rfl)

/-- A new connection. -/
theorem plain_acceptOne (a : Server) (env : Env) (fd sent : Nat) :
    Plain a (a.acceptOne env fd sent) := by
  unfold Server.acceptOne
  split
  · have hkind : (serverFull env.now).kind ≠ some .broadcast := by simp [serverFull]
    have hcalm : (serverFull env.now).kind = some .broadcast → IsNotice (serverFull env.now) :=
      fun h => absurd h hkind
    refine ⟨_, rfl, fun e he => (by rw [List.mem_singleton.mp he]; exact hcalm), fun f x hx => ?_⟩
    simp only [transcript, hkind, decide_false, Bool.and_false, List.append_nil] at hx
    split at hx
    · cases hx
    · exact ⟨_, _, by simpa using hx, hcalm⟩
  · next s _ =>
    have hlog : (({ a with kernel := (a.kernel.accept fd).register fd }.setClient s
      { Client.zero with fd := fd, inUse := true }).note (.accepted a.kernel.accepted s)).log =
        (a.note (.accepted a.kernel.accepted s)).log := rfl
    exact (silent_of_log hlog).plain rfl rfl

theorem plain_hangup (a : Server) (env : Env) (fd : Nat) (unread : List UInt8) :
    Plain a (a.hangup env fd unread) := by
  unfold Server.hangup
  split
  · exact Plain.refl a
  · next s _ => exact ((Silent.refl _).disconnectClient env s).plain rfl rfl

theorem log_sbFlush (a : Server) (s : Slot) (fd : Nat) : (a.sbFlush s fd).2.log = a.log := rfl

theorem plain_handleWrite (a : Server) (env : Env) (fd : Nat) (unread : List UInt8) :
    Plain a (a.handleWrite env fd unread) := by
  unfold Server.handleWrite
  split
  · exact Plain.refl a
  · next s _ =>
    have hlog := log_sbFlush a s fd
    split
    · next b hb =>
      rw [hb] at hlog
      refine (plain_of_log hlog).trans ?_
      exact ((Silent.refl _).disconnectClient env s).plain rfl rfl
    · next b hb =>
      rw [hb] at hlog
      exact plain_of_log hlog
    · next b hb =>
      rw [hb] at hlog
      exact plain_of_log hlog

/-- An event enters the broadcasts routed while it is handled. -/
theorem Books.step (h : Books ps srv) (hout : OutputOk srv) {l : Label}
    (hs : step srv l = some t) : Books (ps ++ postsOf srv l) t := by
  have hpre : Books ps (srv.prescribe l.writes) := ⟨h.orderly, h.entries, h.own⟩
  have hout := hout.same (sameOutput_prescribe srv l.writes)
  rw [Epoll.step] at hs
  cases hact : l.action with
  | accept fd sent =>
    simp only [hact] at hs
    rw [postsOf, hact, List.append_nil]
    split at hs
    · obtain rfl := Option.some.inj hs
      exact hpre.plain (plain_acceptOne ..)
    · cases hs
  | hangup fd unread =>
    simp only [hact] at hs
    obtain rfl := Option.some.inj hs
    rw [postsOf, hact, List.append_nil]
    exact hpre.plain (plain_hangup ..)
  | writable fd unread =>
    simp only [hact] at hs
    obtain rfl := Option.some.inj hs
    rw [postsOf, hact, List.append_nil]
    exact hpre.plain (plain_handleWrite ..)
  | readable fd b =>
    simp only [hact] at hs
    obtain rfl := Option.some.inj hs
    rw [postsOf, hact]
    simp only
    cases hfind : (srv.prescribe l.writes).findByFd fd with
    | none =>
      rw [Server.handleRead, hfind]
      simpa using hpre
    | some s =>
      have hfilled : Books ps ((srv.prescribe l.writes).filled s b) := hpre.plain
        (Silent.plain rfl rfl (silent_of_log rfl))
      have hu : (((srv.prescribe l.writes).filled s b).clients s).inUse = true := by
        rw [Server.inUse_filled]
        exact (findByFd_eq_some hfind).1
      rw [Server.handleRead, hfind]
      change Books _ (if (readLoop ((srv.prescribe l.writes).clients s) b.data b.sizes).1 then
        ((srv.prescribe l.writes).filled s b).disconnectClient l.env s
        else ((srv.prescribe l.writes).filled s b).endRead l.env s b.ending)
      cases hfull : (readLoop ((srv.prescribe l.writes).clients s) b.data b.sizes).1 with
      | true =>
        rw [if_pos rfl]
        cases b.ending with
        | again =>
          simp only [hfull, if_true, List.append_nil]
          exact hfilled.plain (plain_disconnectClient ..)
        | eof =>
          rw [List.append_nil]
          exact hfilled.plain (plain_disconnectClient ..)
        | failed =>
          rw [List.append_nil]
          exact hfilled.plain (plain_disconnectClient ..)
      | false =>
        rw [if_neg (by simp)]
        cases hend : b.ending with
        | again =>
          simp only [hfull]
          exact books_parseLoop l.env s _ (Or.inl hu) (outputOk_closed.handled.filled s b hout) hfilled
        | eof =>
          rw [List.append_nil]
          exact hfilled.plain (plain_disconnectClient ..)
        | failed =>
          rw [List.append_nil]
          exact hfilled.plain (plain_disconnectClient ..)

/-- The books of a run. -/
theorem books_of_run {history : History} {ls : List Label}
    (hrun : run step (Server.init history) ls = some srv) :
    Books (posts (Server.init history) ls) srv := by
  have hall : ∀ (ls : List Label) {a : Server} {ps : List Post}, Inv a → OutputOk a → Books ps a →
      run step a ls = some srv → Books (ps ++ posts a ls) srv := by
    intro ls
    induction ls with
    | nil =>
      intro a ps _ _ h hrun
      obtain rfl := Option.some.inj hrun
      rw [posts, collect, List.append_nil]
      exact h
    | cons l ls ih =>
      intro a ps hinv hout h hrun
      obtain ⟨b, hs, hrun⟩ := run_cons_iff.mp hrun
      rw [posts, collect_cons hs, ← List.append_assoc]
      exact ih (hinv.step hs) (hout.step hinv hs) (h.step hout hs) hrun
  exact hall ls (inv_init history) (outputOk_init history) ⟨⟨none, .nil⟩, rfl, fun _ _ hm => (by cases hm)⟩
    hrun

/-! ## Senders -/

/-- The posts of a connection are the broadcasts processed for it, in order. -/
theorem Books.sent (h : Books ps srv) (o : Nat) :
    (ps.filter fun p => p.origin = some o).map Post.message =
      (processedOf o srv.log).filter fun m => m.kind = some .broadcast := by
  have hposts : ∀ ps : List Post, (ps.filter fun p => p.origin = some o).map Post.message =
      (ps.map fun p => (p.origin, p.message)).filterMap
        fun e => if e.1 = some o then some e.2 else none := by
    intro ps
    induction ps with
    | nil => rfl
    | cons p ps ih =>
      by_cases hp : p.origin = some o
      · simp [hp, ih]
      · simp [hp, ih]
  have hlog : ∀ log : List Event, (log.filterMap Event.post).filterMap
      (fun e => if e.1 = some o then some e.2 else none) =
        (processedOf o log).filter fun m => m.kind = some .broadcast := by
    intro log
    induction log with
    | nil => rfl
    | cons e log ih =>
      cases e with
      | processed d m =>
        cases d with
        | none =>
          rw [List.filterMap_cons]
          by_cases hm : m.kind = some .broadcast
          · simpa [Event.post, hm, processedOf] using ih
          · simpa [Event.post, hm, processedOf] using ih
        | some d =>
          by_cases hm : m.kind = some .broadcast <;> by_cases hd : d = o <;>
            simpa [Event.post, hm, hd, processedOf] using ih
      | _ => exact ih
  rw [hposts, h.entries, hlog]

/-- What is processed for a connection is the front of what its client sent. -/
theorem processedOf_isPrefix {history : History}
    (h : Reachable step (Server.init history) srv) (o : Nat) :
    processedOf o srv.log <+:
      received ((streamOf o srv.log).length + 1) ⟨streamOf o srv.log, []⟩ := by
  have hlinked := linked_of_reachable h o
  have hlive := hlinked.live
  have hproc := hlinked.processed
  rw [arrivalsOf_inputLog] at hlive hproc
  rw [processedOf_inputLog] at hproc
  rw [hproc, received_eq (Nat.lt_succ_self _) (by simp [Channel.Steady])]
  refine List.IsPrefix.filterMap _ (hlive.isPrefix.trans ?_)
  exact through_isPrefix _

/-- In every run of the epoll server, all connections get the relayed broadcasts in the order in
which they are routed. -/
theorem broadcasts_ordered {history : History} {ls : List Label}
    (hrun : run step (Server.init history) ls = some srv) :
    TotallyOrdered (posts (Server.init history) ls) (fun c => inboxOf c srv.log)
        (fun o => received ((streamOf o srv.log).length + 1) ⟨streamOf o srv.log, []⟩) ∧
      ∀ c, srv.kernel.wire c <+: packed ((inboxOf c srv.log).map Prod.snd) := by
  have hbooks := books_of_run hrun
  have hreach : Reachable step (Server.init history) srv := ⟨ls, hrun⟩
  obtain ⟨o, ho⟩ := hbooks.orderly
  constructor
  · refine totallyOrdered ho.ordered (fun o => ?_) fun c m hm => hbooks.own c m (mem_of_inbox hm)
    rw [hbooks.sent]
    exact List.filter_sublist.trans (processedOf_isPrefix hreach o).sublist
  · intro c
    rw [inboxOf, map_snd_inbox]
    exact (outputOk_of_reachable (reachable_opStep hreach)).isPrefix c

end ChatSystem.Epoll

import Mathlib

/-! The election of a lease holder among the tabs of a browser that has no lock manager. Every
attempt posts its claim on a channel and holds the lease when nobody has answered in time. -/

namespace Neoseq.Lease

inductive LeaseMode where
  | exclusive | readonly
  deriving DecidableEq

inductive LeaseMessage (K : Type) where
  | claim (claim : K)
  | held (claim : K)
  deriving DecidableEq

/-- A claimant while there is no outcome. -/
structure Attempt (K : Type) where
  claim : K
  isOpen : Bool
  outcome : Option LeaseMode
  deriving DecidableEq

/-- A message on its way to the channel of an attempt. -/
structure Mail (K : Type) where
  recipient : Nat
  message : LeaseMessage K
  deriving DecidableEq

structure Election (K : Type) where
  attempts : List (Attempt K)
  mail : List (Mail K)
  deriving DecidableEq

variable {K : Type}

namespace Election

def empty : Election K := ⟨[], []⟩

def isOpen (e : Election K) (i : Nat) : Bool := e.attempts[i]?.any Attempt.isOpen

def put (e : Election K) (i : Nat) (attempt : Attempt K) : Election K :=
  { e with attempts := e.attempts.set i attempt }

/-- A message to every other channel that is open. -/
def postMessage (e : Election K) (sender : Nat) (message : LeaseMessage K) : Election K :=
  { e with
    mail := e.mail ++ ((List.range e.attempts.length).filter fun i =>
      decide (i ≠ sender) && e.isOpen i).map (Mail.mk · message) }

def attempt (e : Election K) (claim : K) : Election K :=
  postMessage { e with attempts := e.attempts ++ [⟨claim, true, none⟩] } e.attempts.length
    (.claim claim)

def standDown (e : Election K) (i : Nat) (attempt : Attempt K) : Election K :=
  e.put i { attempt with isOpen := false, outcome := some .readonly }

def close (e : Election K) (i : Nat) : Election K :=
  match e.attempts[i]? with
  | some attempt => e.put i { attempt with isOpen := false }
  | none => e

variable [LinearOrder K]

/-- `channel.onmessage`, of a claimant and of a holder. -/
def receive (e : Election K) (i : Nat) (attempt : Attempt K) (message : LeaseMessage K) :
    Election K :=
  match attempt.outcome, message with
  | none, .claim theirs =>
    if attempt.claim < theirs then e.postMessage i (.held theirs) else e.standDown i attempt
  | none, .held theirs => if theirs = attempt.claim then e.standDown i attempt else e
  | some _, .claim theirs => e.postMessage i (.held theirs)
  | some _, .held _ => e

def deliver (e : Election K) (k : Nat) : Election K :=
  match e.mail[k]? with
  | none => e
  | some mail =>
    let rest := { e with mail := e.mail.eraseIdx k }
    match e.attempts[mail.recipient]? with
    | some attempt =>
      if attempt.isOpen then rest.receive mail.recipient attempt mail.message else rest
    | none => rest

/-- Every answer to a claim has been delivered, and none is still to come. -/
def answered (e : Election K) (i : Nat) (claim : K) : Bool :=
  e.mail.all fun mail => match mail.message with
    | .claim theirs => decide (theirs ≠ claim) || !e.isOpen mail.recipient
    | .held theirs => decide (theirs ≠ claim) || decide (mail.recipient ≠ i)

/-- The timer of a claimant, which fires after every answer. -/
def timer (e : Election K) (i : Nat) : Election K :=
  match e.attempts[i]? with
  | some attempt =>
    if attempt.isOpen ∧ attempt.outcome = none ∧ e.answered i attempt.claim then
      e.put i { attempt with outcome := some .exclusive }
    else e
  | none => e

end Election

/-! ## The order of the attempts -/

/-- An attempt that began while another one's channel was open is no more than a claimant, and
what makes it stand down is on its way unless the other one is gone. -/
def Ordered (e : Election K) : Prop := ∀ i j older younger, i < j →
  e.attempts[i]? = some older → e.attempts[j]? = some younger →
    older.isOpen = true → younger.isOpen = true → younger.outcome = none ∧
      (⟨i, .claim younger.claim⟩ ∈ e.mail ∨ ⟨j, .held younger.claim⟩ ∈ e.mail)

variable {e : Election K} {i : Nat}

theorem mem_postMessage {sender : Nat} {message : LeaseMessage K} {mail : Mail K} :
    mail ∈ (e.postMessage sender message).mail ↔ mail ∈ e.mail ∨
      mail.message = message ∧ mail.recipient ≠ sender ∧ e.isOpen mail.recipient = true := by
  unfold Election.postMessage
  rw [List.mem_append, List.mem_map]
  refine or_congr_right ⟨?_, fun ⟨hmessage, hne, hopen⟩ => ?_⟩
  · rintro ⟨recipient, hmem, rfl⟩
    obtain ⟨hne, hopen⟩ := Bool.and_eq_true_iff.mp (List.mem_filter.mp hmem).2
    exact ⟨rfl, of_decide_eq_true hne, hopen⟩
  · refine ⟨mail.recipient, List.mem_filter.mpr ⟨List.mem_range.mpr ?_, ?_⟩, ?_⟩
    · unfold Election.isOpen at hopen
      by_contra hout
      rw [List.getElem?_eq_none (Nat.le_of_not_lt hout)] at hopen
      cases hopen
    · exact Bool.and_eq_true_iff.mpr ⟨decide_eq_true hne, hopen⟩
    · rw [← hmessage]

theorem isOpen_eq_true {a : Attempt K} (h : e.attempts[i]? = some a) (hopen : a.isOpen = true) :
    e.isOpen i = true := by
  unfold Election.isOpen
  rw [h]
  exact hopen

theorem Ordered.empty : Ordered (Election.empty (K := K)) := by
  intro i j older younger _ hold
  cases hold

/-- The channel of a new attempt is heard by all that were open before. -/
theorem Ordered.attempt (h : Ordered e) (claim : K) : Ordered (e.attempt claim) := by
  intro i j older younger hlt hold hyoung hopen hopen'
  change (e.attempts ++ [_])[i]? = _ at hold
  change (e.attempts ++ [_])[j]? = _ at hyoung
  have hlength : j < (e.attempts ++ [Attempt.mk claim true none]).length :=
    (List.getElem?_eq_some_iff.mp hyoung).1
  rw [List.length_append, List.length_singleton] at hlength
  rw [List.getElem?_append_left (by omega)] at hold
  by_cases hnew : j < e.attempts.length
  · rw [List.getElem?_append_left hnew] at hyoung
    obtain ⟨houtcome, hmail⟩ := h i j older younger hlt hold hyoung hopen hopen'
    exact ⟨houtcome, hmail.imp (mem_postMessage.mpr ∘ .inl) (mem_postMessage.mpr ∘ .inl)⟩
  · obtain rfl : j = e.attempts.length := by omega
    rw [List.getElem?_concat_length] at hyoung
    obtain rfl := Option.some.inj hyoung
    refine ⟨rfl, .inl (mem_postMessage.mpr (.inr ⟨rfl, Nat.ne_of_lt hlt, ?_⟩))⟩
    refine isOpen_eq_true (a := older) ?_ hopen
    exact (List.getElem?_append_left (by omega)).trans hold

/-- An attempt changes, and messages are lost that the pairs it is not in need not. -/
theorem Ordered.put (h : Ordered e) {attempt next : Attempt K} {mail : List (Mail K)}
    (hfound : e.attempts[i]? = some attempt) (hclaim : next.claim = attempt.claim)
    (hopen : next.isOpen = true → attempt.isOpen = true)
    (houtcome : next.isOpen = true → next.outcome = attempt.outcome ∨
      ∀ k older, k < i → e.attempts[k]? = some older → older.isOpen = false)
    (hmail : ∀ m ∈ e.mail, m ∈ mail ∨ next.isOpen = false ∧ m.recipient = i) :
    Ordered { e.put i next with mail := mail } := by
  intro j k older younger hlt hold hyoung hopenj hopenk
  change (e.attempts.set i next)[j]? = _ at hold
  change (e.attempts.set i next)[k]? = _ at hyoung
  have hin : i < e.attempts.length := (List.getElem?_eq_some_iff.mp hfound).1
  -- the two attempts as they were
  have hbefore : ∀ {l : Nat} {a : Attempt K}, (e.attempts.set i next)[l]? = some a →
      a.isOpen = true → ∃ b, e.attempts[l]? = some b ∧ b.isOpen = true ∧ b.claim = a.claim ∧
        (l = i ∧ a = next ∧ b = attempt ∨ l ≠ i ∧ a = b) := by
    intro l a hget hisOpen
    by_cases heq : i = l
    · subst heq
      rw [List.getElem?_set_self hin] at hget
      obtain rfl := Option.some.inj hget
      exact ⟨attempt, hfound, hopen hisOpen, hclaim.symm, .inl ⟨rfl, rfl, rfl⟩⟩
    · rw [List.getElem?_set_ne heq] at hget
      exact ⟨a, hget, hisOpen, rfl, .inr ⟨Ne.symm heq, rfl⟩⟩
  obtain ⟨older', hold', hopenj', _, hj⟩ := hbefore hold hopenj
  obtain ⟨younger', hyoung', hopenk', hclaimk, hk⟩ := hbefore hyoung hopenk
  obtain ⟨hnone, hpending⟩ := h j k older' younger' hlt hold' hyoung' hopenj' hopenk'
  rw [← hclaimk]
  refine ⟨?_, hpending.imp (fun hm => ?_) (fun hm => ?_)⟩
  · rcases hk with ⟨rfl, rfl, rfl⟩ | ⟨_, rfl⟩
    · rcases houtcome hopenk with hsame | hfirst
      · rw [hsame]
        exact hnone
      · rw [hfirst j older' hlt hold'] at hopenj'
        cases hopenj'
    · exact hnone
  · rcases hmail _ hm with hm | ⟨hclosed, hto⟩
    · exact hm
    · rcases hj with ⟨_, rfl, _⟩ | ⟨hne, _⟩
      · rw [hclosed] at hopenj
        cases hopenj
      · exact absurd hto hne
  · rcases hmail _ hm with hm | ⟨hclosed, hto⟩
    · exact hm
    · rcases hk with ⟨_, rfl, _⟩ | ⟨hne, _⟩
      · rw [hclosed] at hopenk
        cases hopenk
      · exact absurd hto hne

theorem mem_eraseIdx {mail : Mail K} {k : Nat} (hmail : e.mail[k]? = some mail) {m : Mail K}
    (hm : m ∈ e.mail) : m ∈ e.mail.eraseIdx k ∨ m = mail := by
  obtain ⟨l, hl⟩ := List.mem_iff_getElem?.mp hm
  by_cases heq : l = k
  · rw [heq, hmail] at hl
    exact .inr (Option.some.inj hl).symm
  · exact .inl (List.mem_eraseIdx_iff_getElem?.mpr ⟨l, heq, hl⟩)

/-- Two attempts do not hold the lease at once. -/
theorem Ordered.holder_unique (h : Ordered e) {i j : Nat} {a b : Attempt K}
    (ha : e.attempts[i]? = some a) (hb : e.attempts[j]? = some b) (hopena : a.isOpen = true)
    (hopenb : b.isOpen = true) (hholda : a.outcome ≠ none) (hholdb : b.outcome ≠ none) : i = j := by
  rcases Nat.lt_trichotomy i j with hlt | heq | hlt
  · exact absurd (h i j a b hlt ha hb hopena hopenb).1 hholdb
  · exact heq
  · exact absurd (h j i b a hlt hb ha hopenb hopena).1 hholda

/-- Messages change, and what makes a claimant stand down stays on its way. -/
theorem Ordered.mail (h : Ordered e) {mail : List (Mail K)}
    (hmail : ∀ i j older younger, i < j → e.attempts[i]? = some older →
      e.attempts[j]? = some younger → older.isOpen = true → younger.isOpen = true →
        younger.outcome = none → ∀ m ∈ e.mail,
          m = ⟨i, .claim younger.claim⟩ ∨ m = ⟨j, .held younger.claim⟩ →
            ⟨i, .claim younger.claim⟩ ∈ mail ∨ ⟨j, .held younger.claim⟩ ∈ mail) :
    Ordered { e with mail := mail } := by
  intro i j older younger hlt hold hyoung hopen hopen'
  obtain ⟨houtcome, hpending⟩ := h i j older younger hlt hold hyoung hopen hopen'
  refine ⟨houtcome, ?_⟩
  rcases hpending with hm | hm
  · exact hmail i j older younger hlt hold hyoung hopen hopen' houtcome _ hm (.inl rfl)
  · exact hmail i j older younger hlt hold hyoung hopen hopen' houtcome _ hm (.inr rfl)

theorem pending_of_kept {mail : List (Mail K)} {m a b : Mail K} (h : m ∈ mail)
    (hpending : m = a ∨ m = b) : a ∈ mail ∨ b ∈ mail := by
  rcases hpending with rfl | rfl
  · exact .inl h
  · exact .inr h

/-- A message is lost whose recipient is gone. -/
theorem Ordered.lose (h : Ordered e) {k : Nat} {lost : Mail K} (hlost : e.mail[k]? = some lost)
    (hgone : e.isOpen lost.recipient = false) :
    Ordered { e with mail := e.mail.eraseIdx k } := by
  refine h.mail fun i j older younger _ hold hyoung hopen hopen' _ m hm hpending => ?_
  rcases mem_eraseIdx hlost hm with hkept | rfl
  · exact pending_of_kept hkept hpending
  · rcases hpending with rfl | rfl
    · rw [isOpen_eq_true hold hopen] at hgone
      cases hgone
    · rw [isOpen_eq_true hyoung hopen'] at hgone
      cases hgone

/-- A claim is answered by whoever does not stand down for it. -/
theorem Ordered.answer (h : Ordered e) {k : Nat} {theirs : K}
    (hmail : e.mail[k]? = some ⟨i, .claim theirs⟩) :
    Ordered (Election.postMessage { e with mail := e.mail.eraseIdx k } i (.held theirs)) := by
  refine h.mail fun j l older younger hlt hold hyoung hopen hopen' _ m hm hpending => ?_
  rcases mem_eraseIdx hmail hm with hkept | rfl
  · exact pending_of_kept (List.mem_append_left _ hkept) hpending
  · rcases hpending with heq | heq
    · obtain ⟨rfl, hclaim⟩ := Mail.mk.inj heq
      obtain rfl := LeaseMessage.claim.inj hclaim
      refine .inr (mem_postMessage.mpr (.inr ⟨rfl, Nat.ne_of_gt hlt, ?_⟩))
      exact isOpen_eq_true (a := younger) hyoung hopen'
    · cases (Mail.mk.inj heq).2

section
variable [LinearOrder K]

theorem Ordered.timer (h : Ordered e) (i : Nat) : Ordered (e.timer i) := by
  unfold Election.timer
  split
  · next attempt hfound =>
    split
    · next hfires =>
      obtain ⟨hopen, _, hanswered⟩ := hfires
      refine h.put hfound rfl (fun _ => hopen) (fun _ => .inr ?_) fun m hm => .inl hm
      -- an older attempt would still be about to answer
      intro k older hlt hold
      by_contra hopenk
      have hopenk := Bool.of_not_eq_false hopenk
      have hall := List.all_eq_true.mp hanswered
      obtain ⟨_, hclaim | hheld⟩ := h k i older attempt hlt hold hfound hopenk hopen
      · have hno := hall _ hclaim
        rw [isOpen_eq_true hold hopenk] at hno
        simp at hno
      · have hno := hall _ hheld
        simp at hno
    · exact h
  · exact h

theorem Ordered.deliver (h : Ordered e) (k : Nat) : Ordered (e.deliver k) := by
  unfold Election.deliver
  split
  · exact h
  · next mail hmail =>
    obtain ⟨recipient, message⟩ := mail
    dsimp only
    split
    · next attempt hfound =>
      have hdown : Ordered ({ e with mail := e.mail.eraseIdx k }.standDown recipient attempt) := by
        refine h.put hfound rfl nofun nofun fun m hm => ?_
        rcases mem_eraseIdx hmail hm with hkept | rfl
        · exact .inl hkept
        · exact .inr ⟨rfl, rfl⟩
      split
      · next hopen =>
        unfold Election.receive
        split
        · split
          · exact h.answer hmail
          · exact hdown
        · next theirs _ =>
          split
          · exact hdown
          · next hother =>
            -- someone else's claim
            refine h.mail fun i j older younger _ hold hyoung _ _ _ m hm hpending => ?_
            rcases mem_eraseIdx hmail hm with hkept | rfl
            · exact pending_of_kept hkept hpending
            · rcases hpending with heq | heq
              · cases (Mail.mk.inj heq).2
              · obtain ⟨rfl, hheld⟩ := Mail.mk.inj heq
                obtain rfl := Option.some.inj (hyoung.symm.trans hfound)
                exact absurd (LeaseMessage.held.inj hheld) hother
        · exact h.answer hmail
        · next mode theirs houtcome =>
          -- a holder, which none that stands before it can have claimed after
          refine h.mail fun i j older younger _ hold hyoung _ _ hnone m hm hpending => ?_
          rcases mem_eraseIdx hmail hm with hkept | rfl
          · exact pending_of_kept hkept hpending
          · rcases hpending with heq | heq
            · cases (Mail.mk.inj heq).2
            · obtain ⟨rfl, _⟩ := Mail.mk.inj heq
              obtain rfl := Option.some.inj (hyoung.symm.trans hfound)
              rw [houtcome] at hnone
              cases hnone
      · next hclosed =>
        refine h.lose hmail ?_
        unfold Election.isOpen
        rw [hfound]
        exact Bool.eq_false_iff.mpr hclosed
    · next hmissing =>
      refine h.lose hmail ?_
      unfold Election.isOpen
      rw [hmissing]
      rfl

end

end Neoseq.Lease

import OnyxKernel.Auth.Shadow
import OnyxKernel.Proc.Family

/-!
# `login`

`login` runs as a root process. It asks for a name and a password until the password is accepted, leaves ring 1 if
the user's id is not 0, and executes the user's shell. It makes no other call that changes what the process may do:
`sys_setuid` and `sys_setgid` are not called.

A run is a sequence of attempts with anything in between that other processes do.
-/

namespace Auth

open Infra Onyx StateProg Proc

/-! ## Names -/

/-- The loop of `find_user` that compares the bytes of an entry's name with a name. -/
def matchLen : (stored name : List UInt8) → Nat
  | e :: es, t :: ts => if e = 0 ∨ e ≠ t then 0 else matchLen es ts + 1
  | _, _ => 0

/-- The test of `find_user`: `none` is the index past the end of an entry's name. -/
def entryMatches (entry : PasswdEntry) (name : List UInt8) : Option Bool :=
  let len := matchLen entry.name.toList name
  if len ≠ name.length then some false
  else if len < 32 then some (entry.name.get len = 0)
  else none

def findUser : List PasswdEntry → (name : List UInt8) → Option (Option PasswdEntry)
  | [], _ => some none
  | entry :: rest, name =>
    match entryMatches entry name with
    | none => none
    | some true => some (some entry)
    | some false => findUser rest name

def stripEnd (typed : List UInt8) : List UInt8 := (typed.reverse.dropWhile fun b => b = 10 ∨ b = 13).reverse

/-! ## Passwords -/

def handleByte (buf : List UInt8) (b : UInt8) : List UInt8 :=
  if b = 0x7F ∨ b = 8 then buf.dropLast
  else if 0x20 ≤ b ∧ b ≤ 0x7E ∧ buf.length < 64 then buf ++ [b]
  else buf

/-- `read_secret_line`: a byte that was found at once and is no newline,
and then the bytes up to the end of the line. -/
def readSecretLine (peeked : Option UInt8) (keys : List UInt8) : List UInt8 :=
  let start := match peeked with
    | some b => if b ≠ 10 then handleByte [] b else []
    | none => []
  (keys.takeWhile fun b => b ≠ 10 ∧ b ≠ 13).foldl handleByte start

/-- What the user and the system contribute to one attempt. -/
structure Attempt where
  typed : List UInt8
  peeked : Option UInt8
  keys : List UInt8
  salt : Nat → Bytes 8
  /-- What `execve` finds under a path. -/
  image : List UInt8 → ExecArgs

/-- How a password was checked, and the world afterwards. -/
structure Authentication where
  password : List UInt8
  outcome : VerifyOutcome
  after : World

section

variable (sha256 : List UInt8 → Bytes 32)

/-- `verify_shadow_outcome`, with the world after it. -/
def check (username password : List UInt8) (w : World) : VerifyOutcome × World :=
  let r := (verifyShadowOutcome sha256 username password).run w
  (r.1.toOption.getD .fail, r.2)

/-- The part of `_start` that reads and checks a password. -/
def authenticate (username : List UInt8) (a : Attempt) (w : World) : Authentication :=
  let (emptyOutcome, w₁) := check sha256 username [] w
  let password := if emptyOutcome ≠ .fail then [] else readSecretLine a.peeked a.keys
  if password = [] then { password := password, outcome := emptyOutcome, after := w₁ }
  else
    let (outcome, w₂) := check sha256 username password w₁
    { password := password, outcome := outcome, after := w₂ }

end

/-! ## Shells -/

/-- The path of the shell with its zero byte: `none` is the slice past the end of the buffer. -/
def shellPath (shell : Bytes 32) : Option (List UInt8) :=
  let stored := shell.toList.takeWhile (· ≠ 0)
  if stored = [] then some [47, 98, 105, 110, 47, 111, 115, 104, 0]
  else if stored.length < 32 then some (stored ++ [0])
  else none

/-- A shell that was executed. -/
structure Session where
  user : PasswdEntry
  username : List UInt8
  auth : Authentication

inductive Phase
  | prompt
  | session (x : Session)
  | panicked

/-- The process `login`, with the table of users that it read at its start. -/
structure Login where
  kernel : Kernel
  users : List PasswdEntry
  shadow : World
  phase : Phase

/-- The end of the loop of `_start`: `dropping`, then `exec_shell`. -/
def Login.startShell (s : Login) (cur : Nat) (x : Session) (image : List UInt8 → ExecArgs) : Login :=
  let kernel := if x.user.uid = 0 then s.kernel else (sysDropring cur 2 s.kernel).2
  match shellPath x.user.shell with
  | none => { s with kernel := kernel, phase := .panicked }
  | some path =>
    match sysExecve cur (image path) kernel with
    | (.error _, kernel) => { s with kernel := kernel }
    | (.ok _, kernel) => { s with kernel := kernel, phase := .session x }

section

variable (sha256 : List UInt8 → Bytes 32)

/-- One turn of the loop of `_start`. -/
def Login.attempt (s : Login) (cur : Nat) (a : Attempt) : Login :=
  let username := stripEnd (a.typed.take 64)
  if username = [] then s
  else match findUser s.users username with
    | none => { s with phase := .panicked }
    | some none => s
    | some (some user) =>
      let auth := authenticate sha256 username a s.shadow
      if auth.outcome = .fail then { s with shadow := auth.after }
      else
        let shadow :=
          if auth.outcome = .okLegacy ∧ user.uid = 0
          then ((updateShadowPassword sha256 a.salt username auth.password).run auth.after).2 else auth.after
        { s with shadow := shadow }.startShell cur ⟨user, username, auth⟩ a.image

/-- The name `root`. -/
def root : List UInt8 := [114, 111, 111, 116]

/-- An attempt, or what other processes do to the shadow file and to the kernel, this process apart. -/
inductive LoginAction
  | attempt (a : Attempt)
  | elsewhere (shadow : World) (kernel : Kernel)

def login (cur : Nat) : Machine Login LoginAction where
  step s
    | .attempt a =>
      match s.phase with
      | .prompt => some (s.attempt sha256 cur a)
      | _ => none
    | .elsewhere shadow kernel =>
      some { s with
        shadow := shadow
        kernel := { kernel with proc := Function.update kernel.proc cur (s.kernel.proc cur) } }

end

/-! ## Who is found -/

theorem matchLen_eq_length : ∀ {stored name : List UInt8}, matchLen stored name = name.length →
    stored.take name.length = name ∧ 0 ∉ name
  | _, [], _ => ⟨rfl, List.not_mem_nil⟩
  | [], t :: ts, h => by cases h
  | e :: es, t :: ts, h => by
    unfold matchLen at h
    split at h
    · cases h
    · rename_i hne
      obtain ⟨h0, rfl⟩ : e ≠ 0 ∧ e = t := by
        rw [not_or, not_not] at hne
        exact hne
      obtain ⟨htake, hzero⟩ := matchLen_eq_length (Nat.succ.inj h)
      refine ⟨by rw [List.length_cons, List.take_succ_cons, htake], ?_⟩
      simp only [List.mem_cons, not_or]
      exact ⟨Ne.symm h0, hzero⟩

theorem entryMatches_name {entry : PasswdEntry} {name : List UInt8} (h : entryMatches entry name = some true) :
    entry.name.toList.takeWhile (· ≠ 0) = name := by
  unfold entryMatches at h
  simp only at h
  split at h
  · cases h
  rename_i hlen
  rw [not_not] at hlen
  split at h
  · rename_i hlt
    obtain ⟨htake, hzero⟩ := matchLen_eq_length hlen
    have hend : entry.name.get name.length = 0 := by
      rw [hlen] at h
      simpa using h
    have hlt' : name.length < entry.name.toList.length := by
      rw [Bytes.length_toList, ← hlen]
      exact hlt
    have hsplit : entry.name.toList = name ++ 0 :: entry.name.toList.drop (name.length + 1) := by
      conv_lhs => rw [← List.take_append_drop name.length entry.name.toList, htake, List.drop_eq_getElem_cons hlt']
      have : entry.name.toList[name.length] = 0 := by
        rw [← List.getD_eq_getElem _ 0 hlt', Bytes.getD_toList, hend]
      rw [this]
    rw [hsplit, List.takeWhile_append_of_pos]
    · simp
    · intro b hb
      have : b ≠ 0 := fun hc => hzero (hc ▸ hb)
      simpa using this
  · cases h

theorem findUser_spec {name : List UInt8} {user : PasswdEntry} : ∀ {users : List PasswdEntry},
    findUser users name = some (some user) → user ∈ users ∧ user.name.toList.takeWhile (· ≠ 0) = name
  | [], h => by cases h
  | entry :: rest, h => by
    unfold findUser at h
    split at h
    · cases h
    · rename_i hm
      obtain rfl : entry = user := by simpa using h
      exact ⟨List.mem_cons_self, entryMatches_name hm⟩
    · obtain ⟨hmem, hname⟩ := findUser_spec h
      exact ⟨List.mem_cons_of_mem _ hmem, hname⟩

/-! ## How a session begins -/

/-- `verify_shadow_outcome` accepts the empty password, or it refuses it and then accepts the one that is typed. -/
def Accepts (sha256 : List UInt8 → Bytes 32) (username : List UInt8) (a : Attempt) (w : World)
    (password : List UInt8) (outcome : VerifyOutcome) : Prop :=
  let first := (verifyShadowOutcome sha256 username []).run w
  password = [] ∧ first.1 = .ok outcome ∨
    password = readSecretLine a.peeked a.keys ∧
      ((verifyShadowOutcome sha256 username password).run first.2).1 = .ok outcome

/-- The session began with the attempt `a` in the state `t`: its user has the name that was typed, and the password was
accepted with the shadow file as it was. -/
structure Session.Verified (sha256 : List UInt8 → Bytes 32) (t : Login) (a : Attempt) (x : Session) : Prop where
  prompt : t.phase = .prompt
  typed : x.username = stripEnd (a.typed.take 64)
  listed : x.user ∈ t.users
  named : x.user.name.toList.takeWhile (· ≠ 0) = x.username
  auth : x.auth = authenticate sha256 x.username a t.shadow
  accepted : Accepts sha256 x.username a t.shadow x.auth.password x.auth.outcome
  outcome : x.auth.outcome = .ok ∨ x.auth.outcome = .okLegacy

section

variable {sha256 : List UInt8 → Bytes 32} {a : Attempt} {k : Kernel}

theorem check_accepted {username password : List UInt8} {w : World}
    (h : (check sha256 username password w).1 ≠ .fail) :
    ((verifyShadowOutcome sha256 username password).run w).1 = .ok (check sha256 username password w).1 := by
  unfold check at h ⊢
  simp only at h ⊢
  cases hr : ((verifyShadowOutcome sha256 username password).run w).1 with
  | ok o => rfl
  | error e =>
    rw [hr] at h
    exact absurd rfl h

theorem authenticate_spec {username : List UInt8} {w : World} {r : Authentication}
    (hr : authenticate sha256 username a w = r) (hout : r.outcome ≠ .fail) :
    Accepts sha256 username a w r.password r.outcome ∧ (r.outcome = .ok ∨ r.outcome = .okLegacy) := by
  have hcases : r.outcome = .ok ∨ r.outcome = .okLegacy := by
    cases ho : r.outcome with
    | ok => exact .inl rfl
    | okLegacy => exact .inr rfl
    | fail => exact absurd ho hout
  refine ⟨?_, hcases⟩
  unfold authenticate at hr
  simp only at hr
  by_cases hempty : (if (check sha256 username [] w).1 ≠ .fail then [] else readSecretLine a.peeked a.keys) = []
  · rw [if_pos hempty] at hr
    subst hr
    exact .inl ⟨hempty, check_accepted hout⟩
  · rw [if_neg hempty] at hr
    subst hr
    refine .inr ⟨?_, check_accepted hout⟩
    -- a password was read, so the empty one was refused
    split
    · rename_i hc
      rw [if_pos hc] at hempty
      exact absurd rfl hempty
    · rfl

/-! ## The process -/

/-- What no attempt changes: the user and the group of the process. A session began in a state in `P`, and is not in
ring 1 unless its user is root. -/
structure Login.Sound (sha256 : List UInt8 → Bytes 32) (P : Login → Prop) (cur : Nat) (uid gid : UInt32)
    (s : Login) : Prop where
  uid : (s.kernel.proc cur).uid = uid
  gid : (s.kernel.proc cur).gid = gid
  ring : (s.kernel.proc cur).ring ≤ procRingUser
  session : ∀ x, s.phase = .session x →
    (∃ t a, P t ∧ x.Verified sha256 t a) ∧ (x.user.uid ≠ 0 → (s.kernel.proc cur).ring = procRingUser)

theorem sysDropring_user {cur : Nat} (h : (k.proc cur).ring ≤ procRingUser) :
    ((sysDropring cur 2 k).2.proc cur).ring = procRingUser ∧
      ((sysDropring cur 2 k).2.proc cur).uid = (k.proc cur).uid ∧
      ((sysDropring cur 2 k).2.proc cur).gid = (k.proc cur).gid := by
  have hlt : ¬ (2 : UInt8) < (k.proc cur).ring := UInt8.not_lt.mpr h
  unfold sysDropring
  rw [if_neg hlt]
  split
  · rename_i heq
    exact ⟨heq.symm, rfl, rfl⟩
  · rw [proc_update_self]
    exact ⟨rfl, rfl, rfl⟩

variable {P : Login → Prop} {cur : Nat} {uid gid : UInt32} {s : Login}

theorem Login.Sound.startShell {x : Session} {image : List UInt8 → ExecArgs} (h : s.Sound sha256 P cur uid gid)
    (hprompt : s.phase = .prompt) (hx : ∃ t a, P t ∧ x.Verified sha256 t a) :
    (s.startShell cur x image).Sound sha256 P cur uid gid := by
  -- the kernel in which `execve` is called
  obtain ⟨k, hk, hkuid, hkgid, hkring, hkuser⟩ : ∃ k,
      k = (if x.user.uid = 0 then s.kernel else (sysDropring cur 2 s.kernel).2) ∧
      (k.proc cur).uid = uid ∧ (k.proc cur).gid = gid ∧ (k.proc cur).ring ≤ procRingUser ∧
      (x.user.uid ≠ 0 → (k.proc cur).ring = procRingUser) := by
    refine ⟨_, rfl, ?_⟩
    split
    · rename_i h0
      exact ⟨h.uid, h.gid, h.ring, fun hne => absurd h0 hne⟩
    · obtain ⟨hr, hu, hg⟩ := sysDropring_user h.ring
      exact ⟨hu.trans h.uid, hg.trans h.gid, UInt8.le_of_eq hr, fun _ => hr⟩
  have hnone : ∀ {y : Session}, s.phase ≠ .session y := by
    intro y hc
    rw [hprompt] at hc
    cases hc
  unfold Login.startShell
  simp only
  rw [← hk]
  split
  · exact ⟨hkuid, hkgid, hkring, fun y hy => by cases hy⟩
  · rename_i path _
    obtain ⟨k', -, -, ⟨⟨e, he⟩, hcur⟩ | ⟨r, c, he, hcheck, hcur⟩⟩ := sysExecve_cases cur (image path) k
    · rw [he]
      refine ⟨?_, ?_, ?_, fun y hy => absurd hy hnone⟩ <;> rw [show k'.proc cur = k.proc cur from hcur]
      · exact hkuid
      · exact hkgid
      · exact hkring
    · rw [he]
      refine ⟨?_, ?_, ?_, fun y hy => ?_⟩
      · show (k'.proc cur).uid = uid
        rw [hcur]
        exact hkuid
      · show (k'.proc cur).gid = gid
        rw [hcur]
        exact hkgid
      · show (k'.proc cur).ring ≤ procRingUser
        rw [hcur]
        show (if r.ring = 1 then procRingRoot else procRingUser) ≤ procRingUser
        split <;> decide
      · obtain rfl : x = y := by cases hy; rfl
        refine ⟨hx, fun hne => ?_⟩
        rw [hcur]
        show (if r.ring = 1 then procRingRoot else procRingUser) = procRingUser
        -- an image of ring 1 is refused in ring 2
        rw [if_neg fun hr => hcheck ⟨hkuser hne, hr⟩]

theorem Login.Sound.attempt (h : s.Sound sha256 P cur uid gid) (hP : P s) (hprompt : s.phase = .prompt) :
    (s.attempt sha256 cur a).Sound sha256 P cur uid gid := by
  unfold Login.attempt
  simp only
  split
  · exact h
  split
  · exact ⟨h.uid, h.gid, h.ring, fun x hx => by cases hx⟩
  · exact h
  · rename_i user hfind
    obtain ⟨hlisted, hnamed⟩ := findUser_spec hfind
    generalize hauth : authenticate sha256 (stripEnd (a.typed.take 64)) a s.shadow = auth
    split
    · exact { h with }
    · rename_i hout
      obtain ⟨haccepts, houtcome⟩ := authenticate_spec hauth hout
      exact Login.Sound.startShell { h with } hprompt
        ⟨s, a, hP, hprompt, rfl, hlisted, hnamed, hauth.symm, haccepts, houtcome⟩

theorem Login.Sound.step {t : Login} {act : LoginAction} (h : s.Sound sha256 P cur uid gid) (hP : P s)
    (hstep : (login sha256 cur).step s act = some t) : t.Sound sha256 P cur uid gid := by
  cases act with
  | attempt a =>
    cases hphase : s.phase with
    | prompt =>
      simp only [login, hphase, Option.some.injEq] at hstep
      exact hstep ▸ h.attempt hP hphase
    | session x | panicked => simp [login, hphase] at hstep
  | elsewhere shadow kernel =>
    obtain rfl : _ = t := Option.some.inj hstep
    have hproc : Function.update kernel.proc cur (s.kernel.proc cur) cur = s.kernel.proc cur :=
      Function.update_self _ _ _
    refine ⟨?_, ?_, ?_, ?_⟩
    · exact (congrArg Process.uid hproc).trans h.uid
    · exact (congrArg Process.gid hproc).trans h.gid
    · exact (congrArg Process.ring hproc).trans_le h.ring
    · intro x hx
      obtain ⟨hv, hr⟩ := h.session x hx
      exact ⟨hv, fun hne => (congrArg Process.ring hproc).trans (hr hne)⟩

end

/-! ## One user -/

end Auth

import Aok.Kernel.InferProvider

/-!
# The two ledgers of the provider

The mirror of the provider equals the counter of its capability between turns. Within a turn it
differs by what the kernel will charge when the files of the session are closed.
-/

namespace Aok.Kernel
open Lib Device

/-! ## Records -/

theorem encode_ok {r : Record} {q : Request} (h : r.encode = .ok q) :
    r.data.length ≤ dataMax ∧ q = ⟨r.sequence, r.inputTokens, r.outputTokens, 0, r.taint, 0,
      UInt32.ofNat r.data.length, Vector.ofFn fun i => r.data.getD i.val 0⟩ := by
  unfold Record.encode at h
  split at h
  · cases h
  rename_i hlen
  split at h
  · cases h
  · cases h
    exact ⟨not_lt.mp hlen, rfl⟩

theorem length_of_encode {r : Record} {q : Request} (h : r.encode = .ok q) :
    q.length.toNat = r.data.length := by
  obtain ⟨hlen, rfl⟩ := encode_ok h
  have hlt : r.data.length < 2 ^ 32 := hlen.trans_lt (by decide)
  exact UInt32.toNat_ofNat_of_lt' hlt

theorem decode_toIo {r : Record} {q : Request} (h : r.encode = .ok q) (state : InferState)
    (tokensUsed taint : UInt64) : (q.toIo state tokensUsed taint).decode =
      .ok ⟨r.sequence, r.inputTokens, r.outputTokens, tokensUsed, r.taint ||| taint, state.code,
        r.data⟩ := by
  have hlength := length_of_encode h
  obtain ⟨hlen, hq⟩ := encode_ok h
  have hqdata : q.data = Vector.ofFn fun i => r.data.getD i.val 0 := by rw [hq]
  have hdata : (clearTail q.length q.data).toList.take q.length.toNat = r.data := by
    refine List.ext_getElem? fun j => ?_
    rw [List.getElem?_take]
    by_cases hj : j < r.data.length
    · rw [if_pos (hlength ▸ hj)]
      have hjm : j < dataMax := hj.trans_le hlen
      simp only [clearTail, Vector.getElem?_toList]
      simp [hjm, hlength, hj, hqdata]
    · rw [if_neg (hlength ▸ hj), List.getElem?_eq_none (not_lt.mp hj)]
  unfold Io.decode
  rw [if_neg (by simpa [Request.toIo, hlength] using hlen)]
  simp only [Request.toIo, hdata]
  rw [hq]

/-! ## What the calls do to the session and its capability -/

namespace Device

variable {k : Device} {c i : ℕ} {x : Capability} {s : Inference}

theorem modifyPath_self (hc : k.caps[c]? = some x) (f : Capability → Capability) :
    (k.modifyPath c f).caps[c]? = some (f x) := by
  have hmem : c ∈ k.path c := Forest.self_mem_path c
  simp [modifyPath, hc, hmem]

theorem unreserve_used (hi : k.sessions[i]? = some s) (hc : k.caps[s.cap]? = some x)
    (used : UInt64) :
    ∃ y, (k.unreserve i used).caps[s.cap]? = some y ∧ y.used = x.used + used := by
  simp only [unreserve, hi]
  exact ⟨_, modifyPath_self hc _, rfl⟩

theorem submit_effect (hi : k.sessions[i]? = some s) (hc : k.caps[s.cap]? = some x) (r : Request) :
    (∃ e, k.submit i s r = (.error e, k)) ∨
    ∃ k', k.submit i s r = (.ok .done, k') ∧ (∃ y, k'.caps[s.cap]? = some y ∧ y.used = x.used) ∧
      k'.sessions[i]? = some { s with
        reservation := r.inputTokens + r.outputTokens, io := r.toIo .pending 0 s.io.taint } := by
  unfold submit
  split
  · exact .inl ⟨_, rfl⟩
  split
  · exact .inl ⟨_, rfl⟩
  split
  · exact .inl ⟨_, rfl⟩
  split
  · exact .inl ⟨_, rfl⟩
  · refine .inr ⟨_, rfl, ⟨_, modifyPath_self hc _, rfl⟩, ?_⟩
    simp only [modifySession, modifyPath, List.getElem?_modify_eq, hi]
    rfl

theorem take_effect (hi : k.sessions[i]? = some s) (copied : Bool) :
    (∃ e, k.take i s copied = (.error e, k)) ∨
    s.io.state = .pending ∧ ∃ k', k.take i s copied =
      (.ok (.record { s.io with state := .running }), k') ∧ k'.caps = k.caps ∧
      k'.sessions[i]? = some { s with io := { s.io with state := .running } } := by
  unfold take
  split
  · exact .inl ⟨_, rfl⟩
  rename_i hpending
  split
  · exact .inl ⟨_, rfl⟩
  · refine .inr ⟨not_not.mp hpending, _, rfl, rfl, ?_⟩
    simp only [modifySession, List.getElem?_modify_eq, hi]
    rfl

theorem complete_effect (hi : k.sessions[i]? = some s) (hc : k.caps[s.cap]? = some x)
    (r : Request) :
    (∃ e, k.complete i s r = (.error e, k)) ∨
    s.io.state = .running ∧ r.inputTokens ≤ s.io.inputTokens ∧
      r.outputTokens ≤ s.io.outputTokens ∧ ∃ k', k.complete i s r = (.ok .done, k') ∧
      (∃ y, k'.caps[s.cap]? = some y ∧ y.used = x.used + (r.inputTokens + r.outputTokens)) ∧
      k'.sessions[i]? = some { s with
        reservation := 0
        io := r.toIo .done (x.used + (r.inputTokens + r.outputTokens)) s.io.taint } := by
  unfold complete
  split
  · exact .inl ⟨_, rfl⟩
  rename_i hstale
  split
  · exact .inl ⟨_, rfl⟩
  rename_i hquota
  push Not at hstale hquota
  obtain ⟨y, hy, hused⟩ := unreserve_used hi hc (r.inputTokens + r.outputTokens)
  refine .inr ⟨hstale.2, UInt64.not_lt.mp hquota.1, UInt64.not_lt.mp hquota.2, _, rfl,
    ⟨y, hy, hused⟩, ?_⟩
  simp only [modifySession, List.getElem?_modify_eq, sessions_unreserve hi, hy, Option.map_some,
    Option.getD_some, hused]
  rfl

def due (io : Io) (reservation : UInt64) : UInt64 := if io.state = .running then reservation else 0

theorem due_of_closed {io : Io} (h : io.state.isOpen = false) (reservation : UInt64) :
    due io reservation = 0 := by
  refine if_neg fun hrun => ?_
  rw [hrun] at h
  cases h

theorem abandon_effect (hi : k.sessions[i]? = some s) (hc : k.caps[s.cap]? = some x) :
    (∃ y, (k.abandon i).caps[s.cap]? = some y ∧ y.used = x.used + due s.io s.reservation) ∧
    ∃ t, (k.abandon i).sessions[i]? = some t ∧ t.cap = s.cap ∧ t.io.state.isOpen = false ∧
      (s.io.state.isOpen = false → t = s) := by
  simp only [abandon, hi]
  split
  · rename_i hopen
    refine ⟨unreserve_used hi hc _, { s with reservation := 0, io := { s.io with state := .cancelled } },
      ?_, rfl, rfl, fun hclosed => ?_⟩
    · simp only [modifySession, List.getElem?_modify_eq, sessions_unreserve hi]
      rfl
    · rw [hopen] at hclosed
      cases hclosed
  · rename_i hopen
    have hclosed := Bool.eq_false_of_not_eq_true hopen
    exact ⟨⟨x, hc, by rw [due_of_closed hclosed, add_zero]⟩, s, hi, rfl, hclosed, fun _ => rfl⟩

end Device

/-! ## Views of a session -/

structure Seat where
  fd : ℕ
  client : ℕ
  backend : ℕ
  cap : ℕ
  session : ℕ

def Seat.held (q : Seat) : List ℕ := [q.client, q.backend, q.fd]

structure View (q : Seat) (client backend : Option File) (used : UInt64) (io : Io)
    (reservation : UInt64) (k : Device) : Prop where
  own : Device.Own q.held q.cap k
  used : ∃ x, k.caps[q.cap]? = some x ∧ x.used = used
  session : ∃ s, k.sessions[q.session]? = some s ∧ s.cap = q.cap ∧ s.io = io ∧
    s.reservation = reservation
  client : k.file q.client = client
  backend : k.file q.backend = backend
  fd : k.file q.fd = some (.cap q.cap)
  apart : q.client ≠ q.backend ∧ q.fd ≠ q.client ∧ q.fd ≠ q.backend

variable {q : Seat} {fc fb : Option File} {u m : UInt64} {io : Io} {k k' : Device}

theorem caps_of_book {c : ℕ} {x : Capability} (h : k'.book.accounts[c]? = k.book.accounts[c]?)
    (hx : k.caps[c]? = some x) : ∃ y, k'.caps[c]? = some y ∧ y.used = x.used := by
  rw [accounts_of hx] at h
  obtain ⟨y, hy, heq⟩ : ∃ y, k'.caps[c]? = some y ∧ y.account = x.account := by
    simpa [book] using h
  exact ⟨y, hy, congrArg Account.used heq⟩

theorem View.others (h : View q fc fb u io m k) (ops : List Op) :
    View q fc fb u io m (run k (ops.filter (Op.Avoids q.held))) := by
  obtain ⟨hown, hkept⟩ := run_other (ops.filter (Op.Avoids q.held)) h.own
    fun op hop => of_decide_eq_true (List.mem_filter.mp hop).2
  obtain ⟨x, hx, hused⟩ := h.used
  obtain ⟨s, hs, hcap, hio, hres⟩ := h.session
  obtain ⟨y, hy, hyused⟩ := caps_of_book hkept.account hx
  have hwork := hkept.works q.session _ (works_of hs) hcap
  obtain ⟨t, ht, heq⟩ : ∃ t, (run k (ops.filter (Op.Avoids q.held))).sessions[q.session]? =
      some t ∧ t.work = s.work := by
    simpa [book] using hwork
  refine ⟨hown, ⟨y, hy, hyused.trans hused⟩, ⟨t, ht, ?_, ?_, ?_⟩, ?_, ?_, ?_, h.apart⟩
  · exact (congrArg Work.cap heq).trans hcap
  · exact (congrArg Work.io heq).trans hio
  · exact (congrArg Work.reservation heq).trans hres
  · exact (hkept.files _ (by simp [Seat.held])).trans h.client
  · exact (hkept.files _ (by simp [Seat.held])).trans h.backend
  · exact (hkept.files _ (by simp [Seat.held])).trans h.fd

theorem View.after (h : View q fc fb u io m k) {backend : Bool} {cmd : SessionCmd}
    {reply : Reply} (heq : k.sessionIoctl q.session backend cmd = (reply, k')) {u' m' : UInt64}
    {io' : Io} (hused : ∃ x, k'.caps[q.cap]? = some x ∧ x.used = u')
    (hsession : ∃ s, k'.sessions[q.session]? = some s ∧ s.cap = q.cap ∧ s.io = io' ∧
      s.reservation = m') : View q fc fb u' io' m' k' := by
  have hown := h.own.sessionIoctl_self q.session backend cmd
  have hfiles := (sessionIoctl_edits k q.session backend cmd).sameRefs.files
  rw [heq] at hown hfiles
  exact ⟨hown, hused, hsession, (file_of_files hfiles _).trans h.client,
    (file_of_files hfiles _).trans h.backend,
    (file_of_files hfiles _).trans h.fd, h.apart⟩

theorem View.at (h : View q fc fb u io m k) {s : Inference}
    (hs : k.sessions[q.session]? = some s) : s.cap = q.cap ∧ s.io = io ∧ s.reservation = m ∧
      ∃ x, k.caps[s.cap]? = some x ∧ x.used = u := by
  obtain ⟨t, ht, hcap, hio, hres⟩ := h.session
  cases hs.symm.trans ht
  exact ⟨hcap, hio, hres, hcap ▸ h.used⟩

theorem View.submit (h : View q fc fb u io m k) (arg : Option Request) :
    (∃ e, k.sessionIoctl q.session false (.submit arg) = (.error e, k)) ∨
    ∃ r k', arg = some r ∧ k.sessionIoctl q.session false (.submit arg) = (.ok .done, k') ∧
      View q fc fb u (r.toIo .pending 0 io.taint) (r.inputTokens + r.outputTokens) k' := by
  rcases sessionIoctl_cases k q.session false (.submit arg) with hrefused | ⟨s, hs, hcall⟩
  · exact .inl hrefused
  cases arg with
  | none => exact .inl ⟨_, hcall⟩
  | some r =>
    obtain ⟨hcap, hio, hres, x, hx, hused⟩ := h.at hs
    rcases submit_effect hs hx r with ⟨e, he⟩ | ⟨k', hk', ⟨y, hy, hyu⟩, hsession⟩
    · exact .inl ⟨e, hcall.trans he⟩
    · refine .inr ⟨r, k', rfl, hcall.trans hk', ?_⟩
      exact h.after (hcall.trans hk') ⟨y, hcap ▸ hy, hyu.trans hused⟩
        ⟨_, hsession, hcap, by rw [hio], rfl⟩

theorem View.take (h : View q fc fb u io m k) (copied : Bool) :
    (∃ e, k.sessionIoctl q.session true (.take copied) = (.error e, k)) ∨
    ∃ k', k.sessionIoctl q.session true (.take copied) =
        (.ok (.record { io with state := .running }), k') ∧
      View q fc fb u { io with state := .running } m k' := by
  rcases sessionIoctl_cases k q.session true (.take copied) with hrefused | ⟨s, hs, hcall⟩
  · exact .inl hrefused
  obtain ⟨hcap, hio, hres, x, hx, hused⟩ := h.at hs
  rcases take_effect hs copied with ⟨e, he⟩ | ⟨_, k', hk', hcaps, hsession⟩
  · exact .inl ⟨e, hcall.trans he⟩
  · rw [hio] at hk' hsession
    refine .inr ⟨k', hcall.trans hk', h.after (hcall.trans hk') ?_ ⟨_, hsession, hcap, rfl, hres⟩⟩
    exact ⟨x, hcap ▸ hcaps ▸ hx, hused⟩

theorem View.charge (h : View q fc fb u io m k) (hrun : io.state = .running) {a b : UInt64}
    (ha : a ≤ io.inputTokens) (hb : b ≤ io.outputTokens) :
    (u + (a + b)).toNat = u.toNat + (a.toNat + b.toNat) := by
  obtain ⟨s, hs, hcap, hio, hres⟩ := h.session
  obtain ⟨x, hx, hused⟩ := h.used
  have hwork := works_of hs
  have hopen : s.work.io.state.isOpen = true := by
    rw [show s.work.io = io from hio, hrun]
    rfl
  have hpath : q.cap ∈ k.book.path s.work.cap := hcap ▸ Forest.self_mem_path q.cap
  have hheld := h.own.sound.reservation_le hwork hopen hpath (accounts_of hx)
  have hprice := h.own.sound.priced _ (List.mem_of_getElem? hwork) hopen
  have hlimit := h.own.sound.bounded _ _ (accounts_of hx)
  rw [show s.work.io = io from hio] at hprice
  have hu : x.account.used.toNat = u.toNat := congrArg UInt64.toNat hused
  have ha' := UInt64.le_iff_toNat_le.mp ha
  have hb' := UInt64.le_iff_toNat_le.mp hb
  have hab : (a + b).toNat = a.toNat + b.toNat :=
    Book.toNat_add_of_le (z := s.work.reservation) (by omega)
  rw [Book.toNat_add_of_le (z := x.account.policy.tokenLimit) (by omega), hab]

theorem View.complete (h : View q fc fb u io m k) (arg : Option Request) :
    (∃ e, k.sessionIoctl q.session true (.complete arg) = (.error e, k)) ∨
    ∃ r k', arg = some r ∧ k.sessionIoctl q.session true (.complete arg) = (.ok .done, k') ∧
      io.state = .running ∧ r.inputTokens ≤ io.inputTokens ∧ r.outputTokens ≤ io.outputTokens ∧
      View q fc fb (u + (r.inputTokens + r.outputTokens))
        (r.toIo .done (u + (r.inputTokens + r.outputTokens)) io.taint) 0 k' := by
  rcases sessionIoctl_cases k q.session true (.complete arg) with hrefused | ⟨s, hs, hcall⟩
  · exact .inl hrefused
  cases arg with
  | none => exact .inl ⟨_, hcall⟩
  | some r =>
    obtain ⟨hcap, hio, hres, x, hx, hused⟩ := h.at hs
    rcases complete_effect hs hx r with
      ⟨e, he⟩ | ⟨hrun, hin, hout, k', hk', ⟨y, hy, hyu⟩, hsession⟩
    · exact .inl ⟨e, hcall.trans he⟩
    · rw [hio] at hrun hin hout hsession
      rw [hused] at hyu hsession
      refine .inr ⟨r, k', rfl, hcall.trans hk', hrun, hin, hout, ?_⟩
      exact h.after (hcall.trans hk') ⟨y, hcap ▸ hy, hyu⟩ ⟨_, hsession, hcap, rfl, rfl⟩

theorem View.result (h : View q fc fb u io m k) (copied : Bool) :
    (∃ e, k.sessionIoctl q.session false (.result copied) = (.error e, k)) ∨
    k.sessionIoctl q.session false (.result copied) = (.ok (.record io), k) := by
  rcases sessionIoctl_cases k q.session false (.result copied) with hrefused | ⟨s, hs, hcall⟩
  · exact .inl hrefused
  obtain ⟨hcap, hio, hres, x, hx, hused⟩ := h.at hs
  rw [hcall]
  dsimp only [sessionLocked, Device.result]
  split
  · exact .inl ⟨_, rfl⟩
  split
  · exact .inl ⟨_, rfl⟩
  · exact .inr (by rw [hio])

theorem View.cancel (h : View q fc fb u io m k) :
    ∃ k', (k.sessionIoctl q.session false .cancel).2 = k' ∧
      ∃ u' io' m', View q fc fb u' io' m' k' ∧
        u' + due io' m' = u + due io m := by
  refine ⟨_, rfl, ?_⟩
  rcases sessionIoctl_cases k q.session false .cancel with ⟨e, he⟩ | ⟨s, hs, hcall⟩
  · rw [he]
    exact ⟨u, io, m, h, rfl⟩
  · obtain ⟨hcap, hio, hres, x, hx, hused⟩ := h.at hs
    obtain ⟨⟨y, hy, hyu⟩, t, ht, htcap, hclosed, _⟩ := abandon_effect hs hx
    rw [hcall]
    refine ⟨_, t.io, t.reservation, h.after hcall ⟨y, hcap ▸ hy, rfl⟩
      ⟨t, ht, htcap.trans hcap, rfl, rfl⟩, ?_⟩
    rw [hyu, hused, hio, hres, due_of_closed hclosed, add_zero]

/-! ## A turn -/

theorem View.issue (h : View q fc fb u io m k) (l : Call) (op : Op) :
    ∃ k₁, View q fc fb u io m k₁ ∧ (l.issue q.held k op = (.error .unreached, k₁) ∨
      l.issue q.held k op = ((step k₁ op).1.mapError .errno, (step k₁ op).2)) := by
  refine ⟨_, h.others l.others, ?_⟩
  unfold Call.issue
  cases l.reached with
  | false => exact .inl rfl
  | true => exact .inr rfl

abbrev Opened (q : Seat) (u : UInt64) (io : Io) (m : UInt64) (k : Device) : Prop :=
  View q (some (.client q.session)) (some (.backend q.session)) u io m k

theorem step_client {cmd : SessionCmd} (h : View q (some (.client q.session)) fb u io m k) :
    step k (.session q.client cmd) = k.sessionIoctl q.session false cmd := by
  simp only [step, h.client]

theorem step_backend {cmd : SessionCmd} (h : View q fc (some (.backend q.session)) u io m k) :
    step k (.session q.backend cmd) = k.sessionIoctl q.session true cmd := by
  simp only [step, h.backend]

theorem Opened.send_submit (h : Opened q u io m k) (l : Call) (readable : Bool) (r : Record) :
    ∃ k₁, (∃ e, l.send q.held k (fun a => .session q.client (.submit a)) readable r =
        (.error e, k₁) ∧ Opened q u io m k₁) ∨
      ∃ d, l.send q.held k (fun a => .session q.client (.submit a)) readable r =
          (.ok .done, k₁) ∧ r.encode = .ok d ∧
        Opened q u (d.toIo .pending 0 io.taint) (d.inputTokens + d.outputTokens) k₁ := by
  unfold Call.send
  cases hd : r.encode with
  | error e => exact ⟨k, .inl ⟨e, rfl, h⟩⟩
  | ok d =>
    obtain ⟨k₁, hview, hissue⟩ := h.issue l (.session q.client (.submit (if readable then some d else none)))
    dsimp only
    rcases hissue with hissue | hissue
    · exact ⟨k₁, .inl ⟨_, hissue, hview⟩⟩
    rw [hissue, step_client hview]
    rcases hview.submit (if readable then some d else none) with ⟨e, he⟩ | ⟨r', k', harg, hk', hview'⟩
    · exact ⟨k₁, .inl ⟨_, by rw [he]; rfl, hview⟩⟩
    · obtain rfl : r' = d := by
        cases readable <;> simp_all
      exact ⟨k', .inr ⟨r', by rw [hk']; rfl, rfl, hview'⟩⟩

theorem Opened.receive_take (h : Opened q u io m k) (l : Call) (copied : Bool)
    {record : Record} (hdecode : Io.decode { io with state := .running } = .ok record) :
    ∃ k₁, (∃ e, l.receive q.held k (.session q.backend (.take copied)) = (.error e, k₁) ∧
        Opened q u io m k₁) ∨
      l.receive q.held k (.session q.backend (.take copied)) = (.ok record, k₁) ∧
        Opened q u { io with state := .running } m k₁ := by
  obtain ⟨k₁, hview, hissue⟩ := h.issue l (.session q.backend (.take copied))
  unfold Call.receive
  rcases hissue with hissue | hissue
  · exact ⟨k₁, .inl ⟨_, by rw [hissue], hview⟩⟩
  rw [hissue, step_backend hview]
  rcases hview.take copied with ⟨e, he⟩ | ⟨k', hk', hview'⟩
  · exact ⟨k₁, .inl ⟨_, by rw [he]; rfl, hview⟩⟩
  · refine ⟨k', .inr ⟨?_, hview'⟩⟩
    rw [hk']
    exact congrArg (·, k') hdecode

theorem Opened.send_complete (h : Opened q u io m k) (l : Call) (readable : Bool) (r : Record) :
    ∃ k₁, (∃ e, l.send q.held k (fun a => .session q.backend (.complete a)) readable r =
        (.error e, k₁) ∧ Opened q u io m k₁) ∨
      ∃ d, l.send q.held k (fun a => .session q.backend (.complete a)) readable r =
          (.ok .done, k₁) ∧ r.encode = .ok d ∧ io.state = .running ∧
        (u + (d.inputTokens + d.outputTokens)).toNat =
          u.toNat + (d.inputTokens.toNat + d.outputTokens.toNat) ∧
        Opened q (u + (d.inputTokens + d.outputTokens))
          (d.toIo .done (u + (d.inputTokens + d.outputTokens)) io.taint) 0 k₁ := by
  unfold Call.send
  cases hd : r.encode with
  | error e => exact ⟨k, .inl ⟨e, rfl, h⟩⟩
  | ok d =>
    obtain ⟨k₁, hview, hissue⟩ := h.issue l
      (.session q.backend (.complete (if readable then some d else none)))
    dsimp only
    rcases hissue with hissue | hissue
    · exact ⟨k₁, .inl ⟨_, hissue, hview⟩⟩
    rw [hissue, step_backend hview]
    rcases hview.complete (if readable then some d else none) with
      ⟨e, he⟩ | ⟨r', k', harg, hk', hrun, hin, hout, hview'⟩
    · exact ⟨k₁, .inl ⟨_, by rw [he]; rfl, hview⟩⟩
    · obtain rfl : r' = d := by
        cases readable <;> simp_all
      exact ⟨k', .inr ⟨r', by rw [hk']; rfl, rfl, hrun, hview.charge hrun hin hout, hview'⟩⟩

theorem Opened.receive_result (h : Opened q u io m k) (l : Call) (copied : Bool)
    {record : Record} (hdecode : io.decode = .ok record) :
    ∃ k₁, Opened q u io m k₁ ∧
      ((∃ e, l.receive q.held k (.session q.client (.result copied)) = (.error e, k₁)) ∨
      l.receive q.held k (.session q.client (.result copied)) = (.ok record, k₁)) := by
  obtain ⟨k₁, hview, hissue⟩ := h.issue l (.session q.client (.result copied))
  refine ⟨k₁, hview, ?_⟩
  unfold Call.receive
  rcases hissue with hissue | hissue
  · exact .inl ⟨_, by rw [hissue]⟩
  rw [hissue, step_client hview]
  rcases hview.result copied with ⟨e, he⟩ | hk'
  · exact .inl ⟨_, by rw [he]; rfl⟩
  · rw [hk']
    exact .inr (congrArg (·, k₁) hdecode)

variable {cfg : ProviderConfig} {t : Turn} {p : Mirror}

/-- The mirror is ahead by what is due, and what the turn returns was charged. -/
structure Settles (q : Seat) (before : UInt64) (end_ : TurnResult × Mirror × Device) : Prop where
  balanced : ∃ u io m, Opened q u io m end_.2.2 ∧ end_.2.1.settled = u + due io m ∧
    ∀ text usage taint, end_.1 = .ok (text, usage, taint) → io.state.isOpen = false ∧
      u.toNat = before.toNat + (usage.inputTokens.toNat + usage.outputTokens.toNat)
  matched : ∀ used expected, end_.1 ≠ .error (.mismatch used expected)

theorem finish_settles (hfd : cfg.fd = q.fd) {a : Answer} {reservation sequence : UInt64}
    (h : Opened q u io reservation k) (hrun : io.state = .running) (hp : p.settled = u) :
    Settles q u (cfg.finish t a q.client q.backend reservation sequence p k) := by
  have hheld : [q.client, q.backend, cfg.fd] = q.held := by rw [hfd]; rfl
  have hdue : due io reservation = reservation := if_pos hrun
  unfold ProviderConfig.finish
  rw [hheld]
  obtain ⟨k₁, ⟨e, he, hview⟩ | ⟨d, hd, hencode, _, hcharge, hview⟩⟩ :=
    h.send_complete t.complete t.completeRead
      ⟨sequence, a.usage.inputTokens, a.usage.outputTokens, 0, 0, 0, a.text⟩
  · -- the session is still running, and its closing charges the reservation
    simp only [he]
    exact ⟨⟨u, io, reservation, hview, by rw [hdue, hp], by simp⟩, by simp⟩
  have hrecord := decode_toIo hencode .done (u + (d.inputTokens + d.outputTokens)) io.taint
  obtain ⟨_, rfl⟩ := encode_ok hencode
  simp only at hcharge hview hrecord
  have hzero : ∀ io : Io, due io 0 = 0 := by
    intro io
    unfold due
    split <;> rfl
  obtain ⟨k₂, hview', ⟨e, he⟩ | hresult⟩ :=
    hview.receive_result t.result t.resultCopied hrecord
  · simp only [hd, he]
    exact ⟨⟨_, _, 0, hview', by rw [hzero, hp, add_zero], by simp⟩, by simp⟩
  · simp only [hd, hresult, hp]
    simp only [ne_eq, not_true_eq_false, or_self, if_false]
    refine ⟨⟨_, _, 0, hview', by rw [hzero, add_zero], ?_⟩, by simp⟩
    rintro text usage taint ⟨⟩
    exact ⟨rfl, hcharge⟩

theorem converse_settles (hfd : cfg.fd = q.fd) (h : Opened q u io m k)
    (hidle : io.state = .idle) (hp : p.settled = u) :
    Settles q u (cfg.converse t q.client q.backend p k) := by
  have hheld : [q.client, q.backend, cfg.fd] = q.held := by rw [hfd]; rfl
  unfold ProviderConfig.converse
  rw [hheld]
  obtain ⟨k₁, ⟨e, he, hview⟩ | ⟨d, hd, hencode, hview⟩⟩ := h.send_submit t.submit t.submitRead
    ⟨1, UInt64.ofNat t.prompt.length, cfg.maxOutput, 0, 0, 0, t.prompt⟩
  · simp only [he]
    exact ⟨⟨u, io, m, hview, by simp [due, hidle, hp], by simp⟩, by simp⟩
  have hrecord := decode_toIo hencode .running 0 io.taint
  obtain ⟨_, rfl⟩ := encode_ok hencode
  obtain ⟨k₂, ⟨e, he, hview'⟩ | ⟨htake, hview'⟩⟩ := hview.receive_take t.take t.takeCopied hrecord
  · simp only [hd, he]
    exact ⟨⟨_, _, _, hview', by simp [due, Request.toIo, hp], by simp⟩, by simp⟩
  simp only [hd, htake]
  cases t.inner t.prompt with
  | none =>
    obtain ⟨k₃, hview₃, hissue⟩ := hview'.issue t.cancel (.session q.client .cancel)
    rcases hissue with hissue | hissue
    · simp only [hissue]
      exact ⟨⟨_, _, _, hview₃, by simp [due, hp], by simp⟩, by simp⟩
    · obtain ⟨k₄, rfl, u', io', m', hview₄, hpaid⟩ := hview₃.cancel
      simp only [hissue, step_client hview₃]
      refine ⟨⟨u', io', m', hview₄, ?_, by simp⟩, by simp⟩
      rw [hpaid, hp]
      simp [due]
  | some a => exact finish_settles hfd hview' rfl hp

/-! ## The deferred calls -/

theorem step_close {n : ℕ} {f : File} (hf : k.file n = some f) :
    step k (.close n) = (.ok .done, { k with files := k.files.set n none }.release f) := by
  simp only [step, hf]

theorem close_file {n : ℕ} {f : File} (hf : k.file n = some f) (j : ℕ) :
    (step k (.close n)).2.file j = if j = n then none else k.file j := by
  have hfiles : (step k (.close n)).2.files = k.files.set n none := by
    rw [step_close hf]
    cases f with
    | cap c => rfl
    | client i | backend i =>
      exact (abandon_edits { k with files := k.files.set n none } i).sameRefs.files
  rw [file, hfiles]
  by_cases hj : j = n
  · have hn := (List.getElem?_eq_some_iff.mp (Option.join_eq_some_iff.mp hf)).1
    simp [hj, hn]
  · rw [if_neg hj, List.getElem?_set_ne (Ne.symm hj)]
    rfl

theorem View.release (h : View q fc fb u io m k) {n : ℕ} {f : File} (hf : k.file n = some f)
    (href : f.ref = .session q.session) (hfd : q.fd ≠ n) :
    ∃ io' m', io'.state.isOpen = false ∧
      View q (if q.client = n then none else fc) (if q.backend = n then none else fb)
        (u + due io m) io' m' (step k (.close n)).2 := by
  obtain ⟨s, hs, hcap, hio, hres⟩ := h.session
  obtain ⟨x, hx, hused⟩ := h.used
  have hk : (step k (.close n)).2 = { ({ k with files := k.files.set n none } : Device).abandon
      q.session with puts := k.puts ++ [.session q.session] } := by
    rw [step_close hf]
    cases f <;> cases href <;> rfl
  have hcounted := step_counted h.own.counted (.close n)
  have hmoves := abandon_moves { k with files := k.files.set n none } q.session
  have hsame := (abandon_edits { k with files := k.files.set n none } q.session).sameRefs
  obtain ⟨⟨y, hy, hyu⟩, w, hw, hwcap, hclosed, _⟩ :=
    abandon_effect (k := { k with files := k.files.set n none }) hs (hcap ▸ hx)
  have hown : Device.Own q.held q.cap (step k (.close n)).2 := by
    have hfiles : ∀ j g, (step k (.close n)).2.file j = some g → k.file j = some g := by
      intro j g hg
      rw [close_file hf] at hg
      split at hg
      · cases hg
      · exact hg
    rw [hk] at hcounted hfiles ⊢
    exact h.own.keep (hmoves.sound h.own.sound) hcounted hmoves.extends hsame.caps_length
      hsame.sessions_length
      ⟨hfiles, by simp, (congrArg List.length hsame.files).trans List.length_set⟩
  refine ⟨w.io, w.reservation, hclosed, hown, ?_, ?_, ?_, ?_, ?_, h.apart⟩
  · rw [hk]
    exact ⟨y, hcap ▸ hy, by rw [hyu, hused, hio, hres]⟩
  · rw [hk]
    exact ⟨w, hw, hwcap.trans hcap, rfl, rfl⟩
  · rw [close_file hf, h.client]
  · rw [close_file hf, h.backend]
  · rw [close_file hf, if_neg hfd, h.fd]

structure Resting (fd c : ℕ) (u : UInt64) (k : Device) : Prop where
  own : Device.Own [fd] c k
  used : ∃ x, k.caps[c]? = some x ∧ x.used = u
  fd : k.file fd = some (.cap c)

theorem View.resting (h : View q none none u io m k) : Resting q.fd q.cap u k := by
  refine ⟨⟨h.own.sound, h.own.counted, h.own.there, h.own.alone, ?_, ?_, ?_⟩, h.used, h.fd⟩
  · intro n hn
    have hmem := h.own.caps n hn
    simp only [Seat.held, List.mem_cons, List.not_mem_nil, or_false] at hmem
    rcases hmem with rfl | rfl | rfl
    · cases h.client.symm.trans hn
    · cases h.backend.symm.trans hn
    · exact List.mem_singleton.mpr rfl
  · intro n f i w hf href hw hwc
    have hmem := h.own.sessions n f i w hf href hw hwc
    simp only [Seat.held, List.mem_cons, List.not_mem_nil, or_false] at hmem
    rcases hmem with rfl | rfl | rfl
    · cases h.client.symm.trans hf
    · cases h.backend.symm.trans hf
    · exact List.mem_singleton.mpr rfl
  · intro n hn
    exact h.own.old n (by simp_all [Seat.held])

theorem close_resting (hfd : cfg.fd = q.fd) (h : Opened q u io m k) :
    Resting q.fd q.cap (u + due io m) (cfg.close t q.client q.backend k) := by
  have hheld : [q.client, q.backend, cfg.fd] = q.held := by rw [hfd]; rfl
  unfold ProviderConfig.close
  rw [hheld]
  obtain ⟨hne, hfc, hfb⟩ := h.apart
  have h₁ := h.others t.closeBackend
  obtain ⟨io₁, m₁, hclosed, h₂⟩ := h₁.release h₁.backend rfl hfb
  rw [if_neg hne, if_pos rfl] at h₂
  have h₃ := h₂.others t.closeClient
  obtain ⟨io₂, m₂, _, h₄⟩ := h₃.release h₃.client rfl hfc
  rw [if_pos rfl, if_neg hne.symm] at h₄
  rw [due_of_closed hclosed, add_zero] at h₄
  exact h₄.resting

/-! ## All turns -/

theorem Resting.others {fd c : ℕ} (h : Resting fd c u k) (ops : List Op) :
    Resting fd c u (run k (ops.filter (Op.Avoids [fd]))) := by
  obtain ⟨hown, hkept⟩ := run_other (ops.filter (Op.Avoids [fd])) h.own
    fun op hop => of_decide_eq_true (List.mem_filter.mp hop).2
  obtain ⟨x, hx, hused⟩ := h.used
  obtain ⟨y, hy, hyused⟩ := caps_of_book hkept.account hx
  exact ⟨hown, ⟨y, hy, hyused.trans hused⟩, (hkept.files fd (by simp)).trans h.fd⟩

theorem sessionNew_ok {c : ℕ} {x : Capability} (hx : k.caps[c]? = some x) (fault : Option Errno) :
    (∃ e, k.sessionNew c fault = (.error e, k)) ∨
    ∃ k', k.sessionNew c fault = (.ok (.pair k.files.length (k.files.length + 1)), k') ∧
      k'.book = k.book.addWork (newSession c x.policy.taint).work ∧
      k'.sessions = k.sessions ++ [newSession c x.policy.taint] ∧
      k'.files = k.files ++
        [some (.client k.sessions.length), some (.backend k.sessions.length)] := by
  simp only [sessionNew, hx]
  split
  · exact .inl ⟨_, rfl⟩
  cases fault with
  | some e => exact .inl ⟨_, rfl⟩
  | none =>
    have hget := congrArg Book.accounts (book_capGet k c)
    refine .inr ⟨_, rfl, Book.ext hget ?_ rfl, rfl, List.append_assoc _ _ _⟩
    simp [book, Book.addWork, install]

theorem Resting.session {fd c : ℕ} (h : Resting fd c u k) (fault : Option Errno) :
    (∃ e, step k (.cap fd (.sessionCreate fault)) = (.error e, k)) ∨
    ∃ q k', step k (.cap fd (.sessionCreate fault)) = (.ok (.pair q.client q.backend), k') ∧
      q.fd = fd ∧ q.cap = c ∧ ∃ io, io.state = .idle ∧ Opened q u io 0 k' := by
  obtain ⟨x, hx, hused⟩ := h.used
  have hcounted := step_counted h.own.counted (.cap fd (.sessionCreate fault))
  have hmoves := step_moves k (.cap fd (.sessionCreate fault))
  simp only [step, h.fd, capIoctl] at hcounted hmoves ⊢
  split
  · exact .inl ⟨_, rfl⟩
  rename_i hvalid
  rw [if_neg hvalid] at hcounted hmoves
  rcases sessionNew_ok hx fault with ⟨e, he⟩ | ⟨k', hk', hbook, hsessions, hfiles⟩
  · exact .inl ⟨e, he⟩
  simp only [hk'] at hcounted hmoves ⊢
  have hlt : fd < k.files.length := h.own.old fd (List.mem_singleton.mpr rfl)
  have hsession : k'.sessions[k.sessions.length]? = some (newSession c x.policy.taint) := by
    rw [hsessions, List.getElem?_concat_length]
  have haccounts : k'.book.accounts[c]? = k.book.accounts[c]? := by rw [hbook]; rfl
  obtain ⟨y, hy, hyu⟩ := caps_of_book haccounts hx
  refine .inr ⟨⟨fd, k.files.length, k.files.length + 1, c, k.sessions.length⟩, k', rfl, rfl, rfl,
    (newSession c x.policy.taint).io, rfl, ?_⟩
  refine ⟨h.own.opened (hmoves.sound h.own.sound) hcounted hbook hfiles,
    ⟨y, hy, hyu.trans hused⟩, ⟨_, hsession, rfl, rfl, rfl⟩, ?_, ?_, ?_, ?_⟩
  · simp [file, hfiles]
  · simp [file, hfiles]
  · exact file_append hfiles fd _ h.fd
  · exact ⟨by simp, hlt.ne, by simp only; omega⟩

/-- A turn keeps the ledgers equal. -/
theorem runSession_resting {fd c : ℕ} (hfd : cfg.fd = fd) (h : Resting fd c u k)
    (hp : p.settled = u) :
    ∃ u', Resting fd c u' (cfg.runSession t p k).2.2 ∧ (cfg.runSession t p k).2.1.settled = u' ∧
      (∀ used expected, (cfg.runSession t p k).1 ≠ .error (.mismatch used expected)) ∧
      ∀ text usage taint, (cfg.runSession t p k).1 = .ok (text, usage, taint) →
        u'.toNat = u.toNat + (usage.inputTokens.toNat + usage.outputTokens.toNat) := by
  unfold ProviderConfig.runSession
  split
  · exact ⟨u, h, hp, by simp, by simp⟩
  split
  · exact ⟨u, h, hp, by simp, by simp⟩
  have h₁ := h.others t.session.others
  unfold Call.issue
  rw [hfd]
  cases t.session.reached with
  | false =>
    simp only [Bool.false_eq_true, if_false]
    exact ⟨u, h₁, hp, by simp, by simp⟩
  | true =>
    simp only [if_true]
    rcases h₁.session t.sessionFault with ⟨e, he⟩ | ⟨q, k', hk', rfl, rfl, io, hidle, hopened⟩
    · rw [he]
      exact ⟨u, h₁, hp, by simp [Except.mapError], by simp [Except.mapError]⟩
    · rw [hk']
      simp only [Except.mapError]
      obtain ⟨⟨u', io', m', hview, hsettled, hok⟩, hmatched⟩ :=
        converse_settles (t := t) hfd hopened hidle hp
      refine ⟨u' + due io' m', close_resting hfd hview, hsettled, hmatched, ?_⟩
      intro text usage taint heq
      obtain ⟨hclosed, hcharge⟩ := hok text usage taint heq
      rw [due_of_closed hclosed, add_zero]
      exact hcharge

theorem runTurns_resting {fd c : ℕ} (hfd : cfg.fd = fd) (turns : List Turn)
    (h : Resting fd c p.settled k) :
    Resting fd c (cfg.runTurns turns p k).1.settled (cfg.runTurns turns p k).2 := by
  induction turns generalizing p k with
  | nil => exact h
  | cons t turns ih =>
    obtain ⟨u', hrest, hsettled, _⟩ := runSession_resting (t := t) hfd h rfl
    exact ih (hsettled ▸ hrest)

theorem create_ok {rights : UInt64} {policy : CapPolicy} {fault : Option Device.CapFault}
    {out : Output} (h : step k (.create rights (some policy) fault) = (.ok out, k')) :
    out = .fd k.files.length ∧ k' = (k.addCap none policy).install (.cap k.caps.length) := by
  simp only [step, capNew, mayCreate] at h
  split at h
  · cases h
  split at h
  · cases h
  rename_i policy' hpolicy
  split at hpolicy
  · cases hpolicy
  cases hpolicy
  split at h
  · cases h
  · cases h
  · cases h
    exact ⟨rfl, rfl⟩

theorem newKernelInferProvider_resting (hsound : k.book.Sound) (hcounted : k.Counted [])
    {rights tokenLimit maxOutput : UInt64} {fault : Option Device.CapFault}
    (h : (newKernelInferProvider k rights tokenLimit maxOutput fault).1 = .ok (cfg, p)) :
    Resting cfg.fd k.caps.length p.settled
      (newKernelInferProvider k rights tokenLimit maxOutput fault).2 := by
  unfold newKernelInferProvider at h ⊢
  split at h
  · rename_i fd k' hstep
    obtain ⟨hout, rfl⟩ := create_ok hstep
    cases hout
    cases h
    refine ⟨own_of_create hsound hcounted _,
      ⟨⟨1, none, ⟨capInfer ||| capServe, 0, 0, tokenLimit⟩, 0, 0, 0, false, false⟩, ?_, rfl⟩, ?_⟩
    · simp [install, addCap]
    · simp [file, install, addCap]
  · cases h
  · cases h

theorem ledgers_agree (ops : List Op) (rights tokenLimit maxOutput : UInt64)
    (fault : Option Device.CapFault) (cfg : ProviderConfig) (p : Mirror)
    (hnew : (newKernelInferProvider (run .initial ops) rights tokenLimit maxOutput fault).1 =
      .ok (cfg, p)) :
    ∃ c, ∀ turns : List Turn,
      let s := cfg.runTurns turns p
        (newKernelInferProvider (run .initial ops) rights tokenLimit maxOutput fault).2
      s.2.file cfg.fd = some (.cap c) ∧
      -- no session is open, and the counters are equal
      (∀ (n : ℕ) (f : File) (i : ℕ) (w : Inference), s.2.file n = some f → f.ref = .session i →
        s.2.sessions[i]? = some w → w.cap ≠ c) ∧
      ∃ x, s.2.caps[c]? = some x ∧ s.1.settled = x.used ∧
        ∀ t : Turn,
          (∀ used expected, (cfg.runSession t s.1 s.2).1 ≠ .error (.mismatch used expected)) ∧
          ∀ text usage taint, (cfg.runSession t s.1 s.2).1 = .ok (text, usage, taint) →
            ∃ y, (cfg.runSession t s.1 s.2).2.2.caps[c]? = some y ∧ y.used.toNat =
              x.used.toNat + (usage.inputTokens.toNat + usage.outputTokens.toNat) := by
  have hfirst := newKernelInferProvider_resting (run_sound ops)
    (run_counted counted_initial ops) hnew
  refine ⟨(run .initial ops).caps.length, fun turns => ?_⟩
  have hrest := runTurns_resting rfl turns hfirst
  obtain ⟨x, hx, hused⟩ := hrest.used
  refine ⟨hrest.fd, fun n f i w hf href hw hc => ?_, x, hx, hused.symm, fun t => ?_⟩
  · have hmem := hrest.own.sessions n f i _ hf href (works_of hw) hc
    rw [List.mem_singleton] at hmem
    rw [hmem, hrest.fd] at hf
    cases hf
    cases href
  · obtain ⟨u', hrest', _, hmatched, hcharge⟩ := runSession_resting (t := t) rfl hrest rfl
    refine ⟨hmatched, fun text usage taint hok => ?_⟩
    obtain ⟨y, hy, hyu⟩ := hrest'.used
    refine ⟨y, hy, ?_⟩
    rw [hyu, hused]
    exact hcharge text usage taint hok

namespace Sample

def quiet : Call := ⟨[], true⟩

/-- A turn in which every call reaches the kernel and the inner provider answers. -/
def turn (inner : List UInt8 → Option Answer) : Turn :=
  ⟨[1, 2, 3], false, inner, quiet, none, quiet, true, quiet, true, quiet, quiet, true, quiet, true,
    [], []⟩

def answered : Turn := turn fun _ => some ⟨[7], ⟨3, 2, 0⟩, 0⟩

def failed : Turn := turn fun _ => none

end Sample

open Sample

theorem ledgers_agree_answered :
    ∃ c, ((⟨0, 20⟩ : ProviderConfig).runTurns [failed] ⟨0, 0⟩
      (newKernelInferProvider .initial rightManageChild 100 20 none).2).2.file 0 = some (.cap c) ∧
    ∃ x y : Capability, x.used = 23 ∧ y.used.toNat = x.used.toNat + (3 + 2) := by
  obtain ⟨c, hc⟩ := ledgers_agree [] rightManageChild 100 20 none ⟨0, 20⟩ ⟨0, 0⟩ (by decide +kernel)
  obtain ⟨hfile, _, x, hx, hsettled, ht⟩ := hc [failed]
  have hused : ((⟨0, 20⟩ : ProviderConfig).runTurns [failed] ⟨0, 0⟩
      (newKernelInferProvider .initial rightManageChild 100 20 none).2).1.settled = 23 := by
    decide +kernel
  have hok : ((⟨0, 20⟩ : ProviderConfig).runSession answered
      ((⟨0, 20⟩ : ProviderConfig).runTurns [failed] ⟨0, 0⟩
        (newKernelInferProvider .initial rightManageChild 100 20 none).2).1
      ((⟨0, 20⟩ : ProviderConfig).runTurns [failed] ⟨0, 0⟩
        (newKernelInferProvider .initial rightManageChild 100 20 none).2).2).1 =
      .ok ([7], ⟨3, 2, 0⟩, 0) := by decide +kernel
  obtain ⟨y, _, hcharge⟩ := (ht answered).2 _ _ _ hok
  exact ⟨c, hfile, x, y, hsettled.symm.trans hused, hcharge⟩

end Aok.Kernel

import Poise.MessageServer

/-!
# Poise client: messages in a stream

Clients send their messages one after the other over TCP, and the server passes what
one call of `recv` gives to `parse_msg`.  There is no framing: a chunk that is not a
message is turned away by one of the two checks of its size or taken for a message.

What the server makes of a chunk depends on the chunk and on what earlier chunks have
left in the page.  Bytes that no chunk has stored are not known, so that a report that
reads one of them is not the same in every memory.
-/

namespace Poise

open Foundations

section StreamFraming

/-- A well-formed message: a head whose size is that of the message, and a context. -/
structure ClientMessage (order : ByteOrder) where
  bytes : Octets
  length_eq : bytes.length = 72
  size_eq : claimedSize order bytes = 72

/-- The array with the serial number. -/
def ClientMessage.serialArray {order : ByteOrder} (msg : ClientMessage order) : Octets :=
  msg.bytes.drop 52

/-- What is printed of the bytes at the start of the page; `none` when they do not suffice. -/
def reportOf (order : ByteOrder) (bytes : Octets) : Option Report :=
  (loadNetTxInfo order bytes).bind fun netInfo =>
    (loadContextInfo order (bytes.drop NetTxInfo.bytes)).bind fun contextInfo =>
      (readString (bytes.drop 52)).map fun serialNo => printMessage netInfo contextInfo serialNo

/-- What is to be reported of a message: its serial number ends with its array at the latest. -/
def ClientMessage.report {order : ByteOrder} (msg : ClientMessage order) : Option Report :=
  reportOf order (msg.bytes ++ [0])

/-- Messages, and the chunks in which their bytes are received. -/
structure Delivery (order : ByteOrder) where
  msgs : List (ClientMessage order)
  chunks : List Chunk
  whole : chunks.flatMap Chunk.bytes = msgs.flatMap ClientMessage.bytes

/-- Whatever the stack held, exactly the messages are reported, once each and in order. -/
def Delivery.ReportsExactly {order : ByteOrder} (d : Delivery order) : Prop :=
  ∀ m, (receiveLoop order (.start m) (d.chunks.map .data)).status = .receiving ∧
    (receiveLoop order (.start m) (d.chunks.map .data)).messages.map some =
      d.msgs.map ClientMessage.report

/-- A chunk that fails one of the two checks of its size. -/
def TurnedAway (order : ByteOrder) (chunk : Octets) : Prop :=
  chunk.length < 24 ∨ chunk.length < claimedSize order chunk

instance
    (order : ByteOrder)
    (chunk : Octets) :
    Decidable (TurnedAway order chunk) :=
  inferInstanceAs (Decidable (_ ∨ _))

/-- The bytes of the page that chunks have stored. -/
def storedPage (page chunk : Octets) : Octets :=
  chunk ++ page.drop chunk.length

/-- Every chunk that is not turned away, with what earlier chunks have left behind it, shows the
next message, and no message is left over. -/
def ShowsAll (order : ByteOrder) : Octets → List Chunk → List (ClientMessage order) → Prop
  | _, [], msgs => msgs = []
  | page, chunk :: chunks, msgs =>
      if TurnedAway order chunk.bytes then
        ShowsAll order (storedPage page chunk.bytes) chunks msgs
      else
        ∃ msg rest, msgs = msg :: rest ∧
          reportOf order (storedPage page chunk.bytes) = msg.report ∧
          ShowsAll order (storedPage page chunk.bytes) chunks rest

section Reports

variable {order : ByteOrder} {bytes : Octets} {report : Report}

theorem reportOf_append
    (h : reportOf order bytes = some report)
    (rest : Octets) :
    reportOf order (bytes ++ rest) = some report := by
  obtain ⟨netInfo, hnet, h⟩ := Option.bind_eq_some_iff.mp h
  obtain ⟨contextInfo, hcontext, h⟩ := Option.bind_eq_some_iff.mp h
  obtain ⟨serialNo, hserial, h⟩ := Option.map_eq_some_iff.mp h
  have hlong := le_length_of_loadContextInfo hcontext
  have hhead : NetTxInfo.bytes = 24 := rfl
  have hoffset : ContextInfo.deviceSerialNo = 28 := rfl
  rw [List.length_drop] at hlong
  rw [reportOf, loadNetTxInfo_append hnet, Option.bind_some,
    List.drop_append_of_le_length (by omega), loadContextInfo_append hcontext, Option.bind_some,
    List.drop_append_of_le_length (by omega), readString_append hserial, Option.map_some, h]

theorem readString_of_reportOf
    (h : reportOf order bytes = some report) :
    readString (bytes.drop 52) = some report.deviceSerialNo := by
  obtain ⟨netInfo, _, h⟩ := Option.bind_eq_some_iff.mp h
  obtain ⟨contextInfo, _, h⟩ := Option.bind_eq_some_iff.mp h
  obtain ⟨serialNo, hserial, rfl⟩ := Option.map_eq_some_iff.mp h
  exact hserial

theorem exists_reportOf
    (order : ByteOrder)
    (h : 0 ∈ bytes.drop 52) :
    ∃ report, reportOf order bytes = some report := by
  obtain ⟨serialNo, hserial⟩ := exists_readString h
  have hpos := List.length_pos_of_mem h
  rw [List.length_drop] at hpos
  have hhead : NetTxInfo.bytes = 24 := rfl
  have hoffset : ContextInfo.deviceSerialNo = 28 := rfl
  rw [reportOf, loadNetTxInfo, if_pos (by omega), Option.bind_some, loadContextInfo,
    if_pos (by rw [List.length_drop]; omega), Option.bind_some, hserial, Option.map_some]
  exact ⟨_, rfl⟩

theorem ClientMessage.exists_report
    (msg : ClientMessage order) :
    ∃ report, msg.report = some report := by
  apply exists_reportOf order
  rw [List.drop_append_of_le_length (by rw [msg.length_eq]; omega)]
  exact List.mem_append_right _ List.mem_cons_self

/-- The bytes of a message suffice when its serial number ends in its array. -/
theorem ClientMessage.reportOf_eq_iff
    (msg : ClientMessage order) :
    reportOf order msg.bytes = msg.report ↔ 0 ∈ msg.serialArray := by
  constructor
  · intro h
    obtain ⟨report, hreport⟩ := msg.exists_report
    exact mem_of_readString (readString_of_reportOf (h.trans hreport))
  · intro h
    obtain ⟨report, hreport⟩ := exists_reportOf order h
    rw [ClientMessage.report, reportOf_append hreport, hreport]

/-- What is reported whatever follows is reported from the bytes alone. -/
theorem reportOf_of_forall
    (h : ∀ rest, pageSize ≤ (bytes ++ rest).length → reportOf order (bytes ++ rest) = some report) :
    reportOf order bytes = some report := by
  have hserial (x : BitVec 8) :
      readString (bytes.drop 52 ++ x :: clearPage) = some report.deviceSerialNo := by
    have hmarked := readString_of_reportOf
      (h (List.replicate (52 - bytes.length) 0 ++ x :: clearPage) (by
        simp only [List.length_append, List.length_cons, clearPage, List.length_replicate]
        omega))
    rwa [List.drop_append, List.drop_left' List.length_replicate] at hmarked
  have hzero : 0 ∈ bytes.drop 52 := by
    by_contra hnone
    have hfirst := hserial 0
    have hsecond := hserial 1
    have hempty : readString (0 :: clearPage) = some [] := rfl
    have hone : readString (1 :: clearPage) = some [1] := rfl
    rw [readString_append_of_notMem hnone, hempty, Option.map_some] at hfirst
    rw [readString_append_of_notMem hnone, hone, Option.map_some, ← hfirst,
      Option.some.injEq] at hsecond
    cases List.append_cancel_left hsecond
  obtain ⟨alone, halone⟩ := exists_reportOf order hzero
  have hwhole := h clearPage (by
    rw [List.length_append, clearPage, List.length_replicate]
    omega)
  rw [reportOf_append halone] at hwhole
  rw [halone, hwhole]

end Reports

section Pages

variable {page : Octets} {chunk : Chunk}

theorem length_storedPage
    (page chunk : Octets) :
    (storedPage page chunk).length = max chunk.length page.length := by
  rw [storedPage, List.length_append, List.length_drop]
  omega

theorem storedPage_starts
    (chunk : Chunk)
    {m : ReceiveMemory}
    (h : page <+: m.bytes) :
    storedPage page chunk.bytes <+: (m.recv (.data chunk)).bytes := by
  rw [recv_data_bytes, storedPage, List.prefix_append_right_inj]
  exact h.drop chunk.bytes.length

theorem ReceiveMemory.eq_of_bytes
    {m m' : ReceiveMemory}
    (h : m.bytes = m'.bytes) :
    m = m' := by
  cases m
  cases m'
  cases h
  rfl

/-- Everything that may stand behind the stored bytes may have stood there before. -/
theorem exists_recv_eq
    {m : ReceiveMemory}
    (h : storedPage page chunk.bytes <+: m.bytes) :
    ∃ m₀ : ReceiveMemory, page <+: m₀.bytes ∧ m₀.recv (.data chunk) = m := by
  obtain ⟨rest, hrest⟩ := h
  have hpage := m.page
  have hlength := length_storedPage page chunk.bytes
  rw [← hrest, List.length_append] at hpage
  have hroom : pageSize ≤ (page ++
      (List.replicate (chunk.bytes.length - page.length) 0 ++ rest)).length := by
    rw [List.length_append, List.length_append, List.length_replicate]
    omega
  have hstored : chunk.bytes ++ (page ++
      (List.replicate (chunk.bytes.length - page.length) 0 ++ rest)).drop chunk.bytes.length =
        m.bytes := by
    rw [List.drop_append, List.drop_left' List.length_replicate, ← List.append_assoc,
      ← storedPage, hrest]
  refine ⟨⟨_, hroom⟩, List.prefix_append _ _, ReceiveMemory.eq_of_bytes ?_⟩
  rw [recv_data_bytes]
  exact hstored

end Pages

section Runs

variable {order : ByteOrder} {m : ReceiveMemory} {page : Octets} {chunk : Chunk}

/-- What has been printed already does not matter to a step. -/
theorem receiveStep_log
    (log : List (Int × ParseOutcome))
    (s : ServerState)
    (r : RecvResult) :
    receiveStep order { s with log := log ++ s.log } r =
      { receiveStep order s r with log := log ++ (receiveStep order s r).log } := by
  obtain ⟨memory, printed, status⟩ := s
  rw [receiveStep, receiveStep]
  cases status with
  | receiving =>
      dsimp only
      by_cases hsize : r.size = 0
      · rw [if_pos hsize, if_pos hsize]
      · rw [if_neg hsize, if_neg hsize]
        cases parseReceived order memory r with
        | none =>
            rfl
        | some parsed =>
            simp only [List.append_assoc]
  | left n =>
      rfl
  | fault =>
      rfl

theorem receiveLoop_log
    (log : List (Int × ParseOutcome))
    (s : ServerState)
    (results : List RecvResult) :
    receiveLoop order { s with log := log ++ s.log } results =
      { receiveLoop order s results with log := log ++ (receiveLoop order s results).log } := by
  induction results generalizing s with
  | nil =>
      rfl
  | cons r results ih =>
      rw [receiveLoop, List.foldl_cons, receiveStep_log]
      exact ih (receiveStep order s r)

/-- A run from its first chunk on. -/
theorem receiveLoop_data
    {parsed : ParseOutcome}
    (h : parseReceived order m (.data chunk) = some parsed)
    (results : List RecvResult) :
    (receiveLoop order (.start m) (.data chunk :: results)).status =
        (receiveLoop order (.start (m.recv (.data chunk))) results).status ∧
      (receiveLoop order (.start m) (.data chunk :: results)).messages =
        ({ ServerState.start m with log := [((RecvResult.data chunk).size, parsed)] }).messages ++
          (receiveLoop order (.start (m.recv (.data chunk))) results).messages := by
  have hstep : receiveStep order (.start m) (.data chunk) =
      { ServerState.start (m.recv (.data chunk)) with
        log := [((RecvResult.data chunk).size, parsed)] ++ [] } := by
    rw [receiveStep]
    dsimp only [ServerState.start]
    rw [if_neg (data_size_ne chunk), h]
    rfl
  have hloop : receiveLoop order (.start m) (.data chunk :: results) =
      receiveLoop order (receiveStep order (.start m) (.data chunk)) results := rfl
  have hlog : receiveLoop order { ServerState.start (m.recv (.data chunk)) with
      log := [((RecvResult.data chunk).size, parsed)] ++ [] } results = _ :=
    receiveLoop_log [((RecvResult.data chunk).size, parsed)] (.start (m.recv (.data chunk))) results
  rw [hloop, hstep, hlog]
  exact ⟨rfl, List.filterMap_append⟩

theorem status_of_fault
    (h : parseReceived order m (.data chunk) = none)
    (results : List RecvResult) :
    (receiveLoop order (.start m) (.data chunk :: results)).status = .fault := by
  have hstep : (receiveStep order (.start m) (.data chunk)).status = .fault := by
    have hnone : ¬ (parseReceived order (ServerState.start m).memory (.data chunk)).isSome := by
      change ¬ (parseReceived order m (.data chunk)).isSome
      rw [h]
      exact Bool.noConfusion
    rw [receiveStep_of_size_ne rfl (data_size_ne chunk), if_neg hnone]
  have hloop : receiveLoop order (.start m) (.data chunk :: results) =
      receiveLoop order (receiveStep order (.start m) (.data chunk)) results := rfl
  rw [hloop, receiveLoop_of_ended (by rw [hstep]; exact LoopStatus.noConfusion), hstep]

/-- A chunk that is turned away is not reported. -/
theorem parseReceived_turnedAway
    (m : ReceiveMemory)
    (h : TurnedAway order chunk.bytes) :
    ∃ parsed, parseReceived order m (.data chunk) = some parsed ∧
      ∀ report, parsed ≠ .message report := by
  have hhead : NetTxInfo.bytes = 24 := rfl
  have hlength : chunk.bytes.length ≤ (m.recv (.data chunk)).bytes.length := by
    rw [recv_data_bytes, List.length_append]
    omega
  rw [parseReceived, parseMsg, toNat_data_size]
  by_cases hsmall : chunk.bytes.length < NetTxInfo.bytes
  · exact ⟨.tooSmall, if_pos hsmall, fun _ => ParseOutcome.noConfusion⟩
  · have hclaim : chunk.bytes.length < claimedSize order (m.recv (.data chunk)).bytes := by
      rw [recv_data_bytes, claimedSize, slice_append_left _ (by omega)]
      exact h.resolve_left (by omega)
    refine ⟨.disMatch, ?_, fun _ => ParseOutcome.noConfusion⟩
    rw [if_neg hsmall, loadNetTxInfo, if_pos (by omega), Option.bind_some]
    exact if_pos hclaim

/-- The other chunks are reported, if the memory suffices. -/
theorem parseReceived_taken
    (m : ReceiveMemory)
    (h : ¬ TurnedAway order chunk.bytes) :
    parseReceived order m (.data chunk) =
      (reportOf order (m.recv (.data chunk)).bytes).map .message := by
  have hhead : NetTxInfo.bytes = 24 := rfl
  rw [TurnedAway, not_or] at h
  have hlength : chunk.bytes.length ≤ (m.recv (.data chunk)).bytes.length := by
    rw [recv_data_bytes, List.length_append]
    omega
  have hclaim : ¬ chunk.bytes.length <
      wordValue order (slice (m.recv (.data chunk)).bytes 0 4) := by
    rw [recv_data_bytes, slice_append_left _ (by omega)]
    exact h.2
  have hserial (b : Octets) :
      (b.drop NetTxInfo.bytes).drop ContextInfo.deviceSerialNo = b.drop 52 := List.drop_drop
  rw [parseReceived, parseMsg, toNat_data_size, if_neg (by omega), reportOf, Option.map_bind,
    loadNetTxInfo, if_pos (by omega), Option.bind_some, Option.bind_some]
  dsimp only
  rw [if_neg hclaim, hserial]
  cases loadContextInfo order ((m.recv (.data chunk)).bytes.drop NetTxInfo.bytes) with
  | none =>
      rfl
  | some contextInfo =>
      rw [Option.bind_some, Function.comp_apply, Option.bind_some, Option.map_map]
      rfl

end Runs

section Exactness

variable {order : ByteOrder}

/-- The chunks are reported as the messages in every memory that begins with some bytes. -/
def ReportsFrom
    (order : ByteOrder) (page : Octets) (chunks : List Chunk) (msgs : List (ClientMessage order)) :
    Prop :=
  ∀ m : ReceiveMemory, page <+: m.bytes →
    (receiveLoop order (.start m) (chunks.map .data)).status = .receiving ∧
      (receiveLoop order (.start m) (chunks.map .data)).messages.map some =
        msgs.map ClientMessage.report

variable {page : Octets} {chunk : Chunk} {chunks : List Chunk} {msgs : List (ClientMessage order)}

/-- A memory that begins with some bytes. -/
def memoryFrom (page : Octets) : ReceiveMemory where
  bytes := page ++ clearPage
  page := by
    rw [List.length_append, clearPage, List.length_replicate]
    omega

theorem reportsFrom_nil
    (page : Octets) :
    ReportsFrom order page [] msgs ↔ msgs = [] := by
  constructor
  · intro h
    exact List.map_eq_nil_iff.mp (h (memoryFrom page) (List.prefix_append _ _)).2.symm
  · rintro rfl m _
    exact ⟨rfl, rfl⟩

theorem reportsFrom_turnedAway
    (h : TurnedAway order chunk.bytes) :
    ReportsFrom order page (chunk :: chunks) msgs ↔
      ReportsFrom order (storedPage page chunk.bytes) chunks msgs := by
  have hstep (m : ReceiveMemory) :
      (receiveLoop order (.start m) ((chunk :: chunks).map .data)).status =
          (receiveLoop order (.start (m.recv (.data chunk))) (chunks.map .data)).status ∧
        (receiveLoop order (.start m) ((chunk :: chunks).map .data)).messages =
          (receiveLoop order (.start (m.recv (.data chunk))) (chunks.map .data)).messages := by
    obtain ⟨parsed, hparsed, hnone⟩ := parseReceived_turnedAway m h
    obtain ⟨hstatus, hmessages⟩ := receiveLoop_data hparsed (chunks.map .data)
    refine ⟨hstatus, hmessages.trans ?_⟩
    cases parsed with
    | tooSmall =>
        rfl
    | disMatch =>
        rfl
    | message report =>
        exact absurd rfl (hnone report)
  constructor
  · intro hreports m hm
    obtain ⟨m₀, hpage, rfl⟩ := exists_recv_eq hm
    obtain ⟨hstatus, hmessages⟩ := hstep m₀
    rw [← hstatus, ← hmessages]
    exact hreports m₀ hpage
  · intro hreports m hm
    obtain ⟨hstatus, hmessages⟩ := hstep m
    rw [hstatus, hmessages]
    exact hreports (m.recv (.data chunk)) (storedPage_starts chunk hm)

/-- A chunk that is taken is the first report. -/
theorem receiveLoop_taken
    (h : ¬ TurnedAway order chunk.bytes)
    {m : ReceiveMemory} {report : Report}
    (hreport : reportOf order (m.recv (.data chunk)).bytes = some report)
    (chunks : List Chunk) :
    (receiveLoop order (.start m) ((chunk :: chunks).map .data)).status =
        (receiveLoop order (.start (m.recv (.data chunk))) (chunks.map .data)).status ∧
      (receiveLoop order (.start m) ((chunk :: chunks).map .data)).messages =
        report ::
          (receiveLoop order (.start (m.recv (.data chunk))) (chunks.map .data)).messages := by
  have hparsed : parseReceived order m (.data chunk) = some (.message report) := by
    rw [parseReceived_taken m h, hreport, Option.map_some]
  exact receiveLoop_data hparsed (chunks.map .data)

theorem reportsFrom_taken
    (h : ¬ TurnedAway order chunk.bytes) :
    ReportsFrom order page (chunk :: chunks) msgs ↔
      ∃ msg rest, msgs = msg :: rest ∧
        reportOf order (storedPage page chunk.bytes) = msg.report ∧
        ReportsFrom order (storedPage page chunk.bytes) chunks rest := by
  constructor
  · intro hreports
    -- In every memory behind the chunk there is a report, and it is that of the first message.
    have hfirst (m : ReceiveMemory) (hm : storedPage page chunk.bytes <+: m.bytes) :
        ∃ report, reportOf order m.bytes = some report ∧
          (receiveLoop order (.start m) (chunks.map .data)).status = .receiving ∧
          some report :: (receiveLoop order (.start m) (chunks.map .data)).messages.map some =
            msgs.map ClientMessage.report := by
      obtain ⟨m₀, hpage, rfl⟩ := exists_recv_eq hm
      obtain ⟨hstatus, hmessages⟩ := hreports m₀ hpage
      cases hreport : reportOf order (m₀.recv (.data chunk)).bytes with
      | none =>
          have hparsed : parseReceived order m₀ (.data chunk) = none := by
            rw [parseReceived_taken m₀ h, hreport, Option.map_none]
          rw [List.map_cons, status_of_fault hparsed] at hstatus
          cases hstatus
      | some report =>
          obtain ⟨hsame, hlist⟩ := receiveLoop_taken h hreport chunks
          rw [hsame] at hstatus
          rw [hlist, List.map_cons] at hmessages
          exact ⟨report, rfl, hstatus, hmessages⟩
    obtain ⟨report, _, _, hlist⟩ := hfirst (memoryFrom (storedPage page chunk.bytes))
      (List.prefix_append _ _)
    cases msgs with
    | nil =>
        cases hlist
    | cons msg rest =>
        obtain ⟨hhead, _⟩ := List.cons.inj hlist
        refine ⟨msg, rest, rfl, ?_, ?_⟩
        · rw [← hhead]
          apply reportOf_of_forall
          intro behind hroom
          obtain ⟨report', hreport', _, hlist'⟩ := hfirst ⟨_, hroom⟩ (List.prefix_append _ _)
          rw [hreport', (List.cons.inj hlist').1, hhead]
        · intro m hm
          obtain ⟨_, _, hstatus, hlist'⟩ := hfirst m hm
          exact ⟨hstatus, (List.cons.inj hlist').2⟩
  · rintro ⟨msg, rest, rfl, hreport, hreports⟩ m hm
    obtain ⟨hstatus, hmessages⟩ := hreports _ (storedPage_starts chunk hm)
    obtain ⟨report, hmsg⟩ := msg.exists_report
    obtain ⟨behind, hbehind⟩ := storedPage_starts chunk hm
    have hshown : reportOf order (m.recv (.data chunk)).bytes = some report := by
      rw [← hbehind]
      exact reportOf_append (hreport.trans hmsg) behind
    obtain ⟨hsame, hlist⟩ := receiveLoop_taken h hshown chunks
    rw [hsame, hlist, List.map_cons, List.map_cons, hmsg, hmessages]
    exact ⟨hstatus, rfl⟩

/-- The messages are reported in every memory exactly when the chunks show them. -/
theorem reportsFrom_iff
    (page : Octets)
    (chunks : List Chunk)
    (msgs : List (ClientMessage order)) :
    ReportsFrom order page chunks msgs ↔ ShowsAll order page chunks msgs := by
  induction chunks generalizing page msgs with
  | nil =>
      exact reportsFrom_nil page
  | cons chunk chunks ih =>
      rw [ShowsAll]
      by_cases h : TurnedAway order chunk.bytes
      · rw [if_pos h, reportsFrom_turnedAway h, ih]
      · rw [if_neg h, reportsFrom_taken h]
        simp only [ih]

theorem Delivery.reportsExactly_iff
    (d : Delivery order) :
    d.ReportsExactly ↔ ShowsAll order [] d.chunks d.msgs := by
  rw [← reportsFrom_iff, ReportsFrom, Delivery.ReportsExactly]
  simp only [List.nil_prefix, forall_const]

end Exactness

section Aligned

variable {order : ByteOrder}

theorem ClientMessage.not_turnedAway
    (msg : ClientMessage order) :
    ¬ TurnedAway order msg.bytes := by
  rw [TurnedAway, msg.length_eq, msg.size_eq]
  omega

theorem eq_nil_of_flatMap_bytes
    {msgs : List (ClientMessage order)}
    (h : msgs.flatMap ClientMessage.bytes = []) :
    msgs = [] := by
  cases msgs with
  | nil =>
      rfl
  | cons msg msgs =>
      have hlength := congrArg List.length h
      rw [List.flatMap_cons, List.length_append, msg.length_eq, List.length_nil] at hlength
      omega

/-- Chunks that are one message each show the messages when all serial numbers end. -/
theorem showsAll_aligned
    {page : Octets} {chunks : List Chunk} {msgs : List (ClientMessage order)}
    (hpage : page.length ≤ 72)
    (hchunks : ∀ chunk, chunk ∈ chunks → chunk.bytes.length = 72)
    (hwhole : chunks.flatMap Chunk.bytes = msgs.flatMap ClientMessage.bytes) :
    ShowsAll order page chunks msgs ↔ ∀ msg, msg ∈ msgs → 0 ∈ msg.serialArray := by
  induction chunks generalizing page msgs with
  | nil =>
      rw [eq_nil_of_flatMap_bytes hwhole.symm, ShowsAll]
      simp
  | cons chunk chunks ih =>
      have hlength := hchunks chunk List.mem_cons_self
      rw [List.flatMap_cons] at hwhole
      cases msgs with
      | nil =>
          have hempty := congrArg List.length hwhole
          rw [List.length_append, hlength, List.flatMap_nil, List.length_nil] at hempty
          omega
      | cons msg msgs =>
          rw [List.flatMap_cons] at hwhole
          obtain ⟨hbytes, hrest⟩ := List.append_inj hwhole (hlength.trans msg.length_eq.symm)
          have hstored : storedPage page msg.bytes = msg.bytes := by
            rw [storedPage, msg.length_eq, List.drop_eq_nil_of_le hpage, List.append_nil]
          have hnext : ShowsAll order msg.bytes chunks msgs ↔ _ :=
            ih (Nat.le_of_eq msg.length_eq)
              (fun c hc => hchunks c (List.mem_cons_of_mem chunk hc)) hrest
          rw [ShowsAll, hbytes, if_neg msg.not_turnedAway, hstored, List.forall_mem_cons,
            ← msg.reportOf_eq_iff, ← hnext]
          constructor
          · rintro ⟨msg', rest, heq, hreport, hshows⟩
            obtain ⟨rfl, rfl⟩ := List.cons.inj heq
            exact ⟨hreport, hshows⟩
          · rintro ⟨hreport, hshows⟩
            exact ⟨msg, msgs, rfl, hreport, hshows⟩

end Aligned

section Marked

variable {order : ByteOrder}

/-- All bytes between the size and the serial number of the message are set. -/
def ClientMessage.marked (msg : ClientMessage order) : ClientMessage order where
  bytes := wordBytes order 4 72 ++ (List.replicate 48 0xff ++ msg.serialArray)
  length_eq := by
    rw [List.length_append, List.length_append, length_wordBytes, List.length_replicate,
      ClientMessage.serialArray, List.length_drop, msg.length_eq]
  size_eq := by
    rw [claimedSize, slice_append_left _ (by rw [length_wordBytes])]
    cases order <;> rfl

theorem serialArray_marked
    (msg : ClientMessage order) :
    msg.marked.serialArray = msg.serialArray := by
  have hfront : (wordBytes order 4 72 ++ List.replicate 48 (0xff : BitVec 8)).length = 52 := by
    rw [List.length_append, length_wordBytes, List.length_replicate]
  rw [ClientMessage.serialArray, ClientMessage.marked]
  dsimp only
  rw [← List.append_assoc, List.drop_left' hfront]

/-- The bytes of marked messages. -/
def markedStream (msgs : List (ClientMessage order)) : Octets :=
  (msgs.map ClientMessage.marked).flatMap ClientMessage.bytes

/-- The stream from a position on is the rest of a message and further messages. -/
theorem markedStream_drop
    {msgs : List (ClientMessage order)} {front tail : Octets}
    (h : front ++ tail = markedStream msgs)
    (htail : tail ≠ []) :
    ∃ (msg : ClientMessage order) (rest : List (ClientMessage order)) (q : Nat), q < 72 ∧
      tail = msg.marked.bytes.drop q ++ markedStream rest := by
  induction msgs generalizing front with
  | nil =>
      have hnil : front ++ tail = [] := h
      exact absurd (List.append_eq_nil_iff.mp hnil).2 htail
  | cons msg msgs ih =>
      have hstream : markedStream (msg :: msgs) = msg.marked.bytes ++ markedStream msgs := rfl
      have hmsg := msg.marked.length_eq
      rw [hstream] at h
      rcases Nat.lt_or_ge front.length 72 with hlt | hge
      · refine ⟨msg, msgs, front.length, hlt, ?_⟩
        have hdrop := congrArg (List.drop front.length) h
        rwa [List.drop_left, List.drop_append_of_le_length (by omega)] at hdrop
      · have hdrop := congrArg (List.drop 72) h
        rw [List.drop_append_of_le_length hge, List.drop_left' hmsg] at hdrop
        exact ih hdrop

/-- The fields of the head that are printed, but for the payload length, which is printed signed. -/
theorem fields_of_reportOf
    {bytes : Octets} {report : Report}
    (h : reportOf order bytes = some report) :
    52 ≤ bytes.length ∧
      report.sip = wordValue order (slice bytes 4 4) ∧
      report.dip = wordValue order (slice bytes 8 4) ∧
      report.sport = wordValue order (slice bytes 12 2) ∧
      report.dport = wordValue order (slice bytes 14 2) ∧
      report.ipid = wordValue order (slice bytes 16 2) ∧
      report.plen = asInt (wordValue order (slice bytes 20 4)) := by
  obtain ⟨netInfo, hnet, h⟩ := Option.bind_eq_some_iff.mp h
  obtain ⟨contextInfo, hcontext, h⟩ := Option.bind_eq_some_iff.mp h
  obtain ⟨serialNo, _, rfl⟩ := Option.map_eq_some_iff.mp h
  have hhead := le_length_of_loadNetTxInfo hnet
  have hlong := le_length_of_loadContextInfo hcontext
  have hbytes : NetTxInfo.bytes = 24 := rfl
  have hoffset : ContextInfo.deviceSerialNo = 28 := rfl
  rw [List.length_drop] at hlong
  rw [loadNetTxInfo, if_pos hhead] at hnet
  cases hnet
  exact ⟨by omega, rfl, rfl, rfl, rfl, rfl, rfl⟩

theorem asInt_inj
    {v w : Nat}
    (hv : v < 256 ^ 4)
    (hw : w < 256 ^ 4)
    (h : asInt v = asInt w) :
    v = w := by
  have hbits := congrArg BitVec.toNat (BitVec.toInt_inj.mp h)
  rw [BitVec.toNat_ofNat, BitVec.toNat_ofNat] at hbits
  omega

/-- Where the printed fields of the head stand. -/
def IsHeadByte (i : Nat) : Prop :=
  4 ≤ i ∧ i < 18 ∨ 20 ≤ i ∧ i < 24

/-- Bytes that show the same report have the same printed fields of the head. -/
theorem getElem?_of_reportOf
    {a b : Octets} {report : Report}
    (ha : reportOf order a = some report)
    (hb : reportOf order b = some report)
    {i : Nat}
    (hi : IsHeadByte i) :
    a[i]? = b[i]? := by
  obtain ⟨halong, hasip, hadip, hasport, hadport, haipid, haplen⟩ := fields_of_reportOf ha
  obtain ⟨hblong, hbsip, hbdip, hbsport, hbdport, hbipid, hbplen⟩ := fields_of_reportOf hb
  have hlengths (j n : Nat) (hj : j + n ≤ 24) : (slice a j n).length = (slice b j n).length := by
    rw [length_slice (by omega), length_slice (by omega)]
  have hfield {j n : Nat} (hj : j + n ≤ 24)
      (h : wordValue order (slice a j n) = wordValue order (slice b j n))
      (hin : j ≤ i ∧ i < j + n) : a[i]? = b[i]? := by
    have hslice := congrArg (fun l => l[i - j]?) (wordValue_inj (hlengths j n hj) h)
    have hoffset : j + (i - j) = i := by
      omega
    simpa only [slice, List.getElem?_take_of_lt (show i - j < n by omega), List.getElem?_drop,
      hoffset] using hslice
  have hbound (l : Octets) (hl : 52 ≤ l.length) : wordValue order (slice l 20 4) < 256 ^ 4 := by
    have hlt := wordValue_lt order (slice l 20 4)
    rwa [length_slice (by omega)] at hlt
  have hplen := asInt_inj (hbound a halong) (hbound b hblong) (haplen.symm.trans hbplen)
  rcases Nat.lt_or_ge i 8 with h8 | h8
  · exact hfield (by omega) (hasip.symm.trans hbsip) (by rw [IsHeadByte] at hi; omega)
  rcases Nat.lt_or_ge i 12 with h12 | h12
  · exact hfield (by omega) (hadip.symm.trans hbdip) (by omega)
  rcases Nat.lt_or_ge i 14 with h14 | h14
  · exact hfield (by omega) (hasport.symm.trans hbsport) (by omega)
  rcases Nat.lt_or_ge i 16 with h16 | h16
  · exact hfield (by omega) (hadport.symm.trans hbdport) (by omega)
  rcases Nat.lt_or_ge i 18 with h18 | h18
  · exact hfield (by omega) (haipid.symm.trans hbipid) (by omega)
  · exact hfield (by omega) hplen (by rw [IsHeadByte] at hi; omega)

/-- The size that a chunk from inside the head or the context gives itself is too large. -/
theorem claimedSize_inside
    (order : ByteOrder)
    {q : Nat}
    (hpos : 0 < q)
    (hq : q ≤ 48) :
    pageSize < wordValue order
      (slice (wordBytes order 4 72 ++ List.replicate 48 0xff) q 4) := by
  have hlittle : ∀ k : Fin 48, pageSize < wordValue .little
      (slice (wordBytes .little 4 72 ++ List.replicate 48 0xff) (k + 1) 4) := by
    decide
  have hbig : ∀ k : Fin 48, pageSize < wordValue .big
      (slice (wordBytes .big 4 72 ++ List.replicate 48 0xff) (k + 1) 4) := by
    decide
  obtain ⟨k, rfl⟩ := Nat.exists_eq_add_of_lt hpos
  rw [Nat.zero_add] at hq ⊢
  cases order with
  | little =>
      exact hlittle ⟨k, hq⟩
  | big =>
      exact hbig ⟨k, hq⟩

theorem getElem?_marked
    (msg : ClientMessage order)
    {i : Nat}
    (hi : 4 ≤ i ∧ i < 52) :
    (msg.marked.bytes ++ [0])[i]? = some 0xff := by
  rw [ClientMessage.marked]
  dsimp only
  rw [List.append_assoc, List.getElem?_append_right (by rw [length_wordBytes]; omega),
    length_wordBytes, List.append_assoc,
    List.getElem?_append_left (by rw [List.length_replicate]; omega),
    List.getElem?_replicate_of_lt (by omega)]

/-- The bytes of the size are not all ones. -/
theorem getElem?_size_ne
    (order : ByteOrder)
    {j : Nat}
    (hj : j < 4) :
    (wordBytes order 4 72)[j]? ≠ some 0xff := by
  interval_cases j <;> cases order <;> decide

/-- A marked stream begins with the size of a message. -/
theorem getElem?_markedStream_ne
    (msgs : List (ClientMessage order))
    {j : Nat}
    (hj : j < 4) :
    (markedStream msgs)[j]? ≠ some 0xff := by
  cases msgs with
  | nil =>
      exact nofun
  | cons next rest =>
      have hbytes : markedStream (next :: rest) = wordBytes order 4 72 ++
          ((List.replicate 48 0xff ++ next.serialArray) ++ markedStream rest) :=
        List.append_assoc _ _ _
      rw [hbytes, List.getElem?_append_left (by rw [length_wordBytes]; omega)]
      exact getElem?_size_ne order hj

/-- The printed fields of a chunk that is shown as a marked message. -/
theorem getElem?_of_shown
    {page bytes : Octets} {msg : ClientMessage order}
    (hshown : reportOf order (storedPage page bytes) = msg.marked.report)
    {i : Nat}
    (hhead : IsHeadByte i)
    (hi : i < bytes.length) :
    bytes[i]? = some 0xff := by
  obtain ⟨report, hreport⟩ := msg.marked.exists_report
  have hsame := getElem?_of_reportOf (hshown.trans hreport) hreport hhead
  rw [getElem?_marked msg (by rw [IsHeadByte] at hhead; omega), storedPage,
    List.getElem?_append_left hi] at hsame
  exact hsame

/-- Some byte of the size of the next message stands where a printed field would stand. -/
theorem exists_isHeadByte
    {n : Nat}
    (hpos : 0 < n)
    (hn : n < 24) :
    ∃ j, j < 4 ∧ IsHeadByte (n + j) := by
  simp only [IsHeadByte]
  rcases Nat.lt_or_ge n 4 with hlt | hge
  · exact ⟨4 - n, by omega, by omega⟩
  · by_cases hreserve : n = 18 ∨ n = 19
    · exact ⟨20 - n, by omega, by omega⟩
    · exact ⟨0, by omega, by omega⟩

/-- A chunk of a marked stream that is shown as a message begins where a message begins. -/
theorem length_of_shown
    {msgs : List (ClientMessage order)} {front behind page : Octets} {chunk : Chunk}
    (hstream : front ++ (chunk.bytes ++ behind) = markedStream msgs)
    (htaken : ¬ TurnedAway order chunk.bytes)
    {msg : ClientMessage order}
    (hshown : reportOf order (storedPage page chunk.bytes) = msg.marked.report) :
    72 ≤ chunk.bytes.length := by
  rw [TurnedAway, not_or, Nat.not_lt, Nat.not_lt] at htaken
  obtain ⟨hlong, hclaim⟩ := htaken
  have hne : chunk.bytes ++ behind ≠ [] := by
    intro hnil
    rw [(List.append_eq_nil_iff.mp hnil).1, List.length_nil] at hlong
    omega
  obtain ⟨first, rest, q, hq, htail⟩ := markedStream_drop hstream hne
  have hfirst : (first.marked.bytes.drop q).length = 72 - q := by
    rw [List.length_drop, first.marked.length_eq]
  rcases Nat.lt_or_ge 48 q with hlate | hearly
  · -- The size of the next message stands where the chunk has to show the head.
    obtain ⟨j, hj, hhead⟩ := exists_isHeadByte (n := 72 - q) (by omega) (by omega)
    have hin : 72 - q + j < 24 := by
      rw [IsHeadByte] at hhead
      omega
    have hshownByte : chunk.bytes[72 - q + j]? = some 0xff :=
      getElem?_of_shown hshown hhead (by omega)
    have hchunk : (chunk.bytes ++ behind)[72 - q + j]? = chunk.bytes[72 - q + j]? :=
      List.getElem?_append_left (by omega)
    have hnext : chunk.bytes[72 - q + j]? = (markedStream rest)[j]? := by
      rw [← hchunk, htail, List.getElem?_append_right (by omega), hfirst, Nat.add_sub_cancel_left]
    rw [hshownByte] at hnext
    exact absurd hnext.symm (getElem?_markedStream_ne rest hj)
  · -- The first four bytes of the chunk are inside the message.
    have hsize : claimedSize order chunk.bytes = wordValue order
        (slice (wordBytes order 4 72 ++ List.replicate 48 0xff) q 4) := by
      have hfront : slice chunk.bytes 0 4 = slice first.marked.bytes q 4 := by
        rw [← slice_append_left behind (by omega), htail, slice_append_left _ (by omega)]
        rfl
      rw [claimedSize, hfront, ClientMessage.marked]
      dsimp only
      rw [← List.append_assoc, slice_append_left _ (by
        rw [List.length_append, length_wordBytes, List.length_replicate]
        omega)]
    rcases Nat.eq_zero_or_pos q with rfl | hpos
    · have hvalue : wordValue order
          (slice (wordBytes order 4 72 ++ List.replicate 48 0xff) 0 4) = 72 := by
        cases order <;> rfl
      omega
    · have hlarge := claimedSize_inside order hpos hearly
      have hfits := chunk.fits
      omega

/-- The chunks that are shown as marked messages are long enough to leave no room for others. -/
theorem length_of_showsAll
    {msgs shown : List (ClientMessage order)} {front page : Octets} {chunks : List Chunk}
    (hstream : front ++ chunks.flatMap Chunk.bytes = markedStream msgs)
    (h : ShowsAll order page chunks (shown.map ClientMessage.marked)) :
    72 * shown.length ≤ (chunks.flatMap Chunk.bytes).length ∧
      (72 * shown.length = (chunks.flatMap Chunk.bytes).length →
        ∀ chunk, chunk ∈ chunks → chunk.bytes.length = 72) := by
  induction chunks generalizing front page shown with
  | nil =>
      rw [ShowsAll, List.map_eq_nil_iff] at h
      subst h
      simp
  | cons chunk chunks ih =>
      have hpos := chunk.pos
      have hnext : (front ++ chunk.bytes) ++ chunks.flatMap Chunk.bytes = markedStream msgs := by
        rw [List.append_assoc, ← List.flatMap_cons]
        exact hstream
      rw [ShowsAll] at h
      split at h
      · obtain ⟨hle, _⟩ := ih hnext h
        rw [List.flatMap_cons, List.length_append]
        exact ⟨by omega, by omega⟩
      · rename_i htaken
        obtain ⟨msg, rest, hmsgs, hshown, hrest⟩ := h
        obtain ⟨msg, shown, rfl, rfl, rfl⟩ := List.map_eq_cons_iff.mp hmsgs
        obtain ⟨hle, hall⟩ := ih hnext hrest
        have hlong := length_of_shown (by rw [← List.flatMap_cons]; exact hstream) htaken hshown
        rw [List.flatMap_cons, List.length_append, List.length_cons]
        refine ⟨by omega, ?_⟩
        intro htotal c hc
        rcases List.mem_cons.mp hc with rfl | hc
        · omega
        · exact hall (by omega) c hc

/-- Another stream of the same length can be cut in the same way. -/
theorem exists_chunks
    (chunks : List Chunk)
    {stream : Octets}
    (h : stream.length = (chunks.flatMap Chunk.bytes).length) :
    ∃ chunks' : List Chunk, chunks'.flatMap Chunk.bytes = stream ∧
      chunks'.map (fun chunk => chunk.bytes.length) =
        chunks.map (fun chunk => chunk.bytes.length) := by
  induction chunks generalizing stream with
  | nil =>
      exact ⟨[], (List.eq_nil_of_length_eq_zero h).symm, rfl⟩
  | cons chunk chunks ih =>
      rw [List.flatMap_cons, List.length_append] at h
      have htake : (stream.take chunk.bytes.length).length = chunk.bytes.length := by
        rw [List.length_take]
        omega
      have hdrop : (stream.drop chunk.bytes.length).length =
          (chunks.flatMap Chunk.bytes).length := by
        rw [List.length_drop]
        omega
      obtain ⟨chunks', hbytes, hlengths⟩ := ih hdrop
      refine ⟨⟨stream.take chunk.bytes.length, by rw [htake]; exact chunk.pos,
        by rw [htake]; exact chunk.fits⟩ :: chunks', ?_, ?_⟩
      · rw [List.flatMap_cons, hbytes, List.take_append_drop]
      · rw [List.map_cons, List.map_cons, hlengths, htake]

theorem length_markedStream
    (msgs : List (ClientMessage order)) :
    (markedStream msgs).length = 72 * msgs.length := by
  induction msgs with
  | nil =>
      rfl
  | cons msg msgs ih =>
      have hstream : markedStream (msg :: msgs) = msg.marked.bytes ++ markedStream msgs := rfl
      rw [hstream, List.length_append, msg.marked.length_eq, ih, List.length_cons]
      omega

theorem length_flatMap_bytes
    (msgs : List (ClientMessage order)) :
    (msgs.flatMap ClientMessage.bytes).length = 72 * msgs.length := by
  induction msgs with
  | nil =>
      rfl
  | cons msg msgs ih =>
      rw [List.flatMap_cons, List.length_append, msg.length_eq, ih, List.length_cons]
      omega

end Marked

/-- Messages with the same serial numbers, cut at the same places. -/
structure Delivery.SameShape {order : ByteOrder} (d e : Delivery order) : Prop where
  serials : e.msgs.map ClientMessage.serialArray = d.msgs.map ClientMessage.serialArray
  cuts : e.chunks.map (fun chunk => chunk.bytes.length) =
    d.chunks.map (fun chunk => chunk.bytes.length)

section Shapes

variable {order : ByteOrder} {d e : Delivery order}

/-- The marked messages, cut in the same way. -/
theorem Delivery.exists_marked
    (d : Delivery order) :
    ∃ e : Delivery order, d.SameShape e ∧ e.msgs = d.msgs.map ClientMessage.marked := by
  have hlength : (markedStream d.msgs).length = (d.chunks.flatMap Chunk.bytes).length := by
    rw [length_markedStream, d.whole, length_flatMap_bytes]
  obtain ⟨chunks, hwhole, hcuts⟩ := exists_chunks d.chunks hlength
  refine ⟨⟨d.msgs.map ClientMessage.marked, chunks, hwhole⟩, ⟨?_, hcuts⟩, rfl⟩
  rw [List.map_map]
  exact List.map_congr_left fun msg _ => serialArray_marked msg

theorem Delivery.SameShape.lengths_iff
    (h : d.SameShape e) :
    (∀ chunk, chunk ∈ e.chunks → chunk.bytes.length = 72) ↔
      ∀ chunk, chunk ∈ d.chunks → chunk.bytes.length = 72 := by
  have hiff (chunks : List Chunk) : (∀ chunk, chunk ∈ chunks → chunk.bytes.length = 72) ↔
      ∀ n, n ∈ chunks.map (fun chunk => chunk.bytes.length) → n = 72 := by
    simp
  rw [hiff, hiff, h.cuts]

theorem Delivery.SameShape.serials_iff
    (h : d.SameShape e) :
    (∀ msg, msg ∈ e.msgs → 0 ∈ msg.serialArray) ↔ ∀ msg, msg ∈ d.msgs → 0 ∈ msg.serialArray := by
  have hiff (msgs : List (ClientMessage order)) : (∀ msg, msg ∈ msgs → 0 ∈ msg.serialArray) ↔
      ∀ array, array ∈ msgs.map ClientMessage.serialArray → 0 ∈ array := by
    simp
  rw [hiff, hiff, h.serials]

/-- Where only the serial numbers and the places of the cuts are known, every chunk has to be a
message. -/
theorem Delivery.lengths_of_forall
    (h : ∀ e : Delivery order, d.SameShape e → e.ReportsExactly) :
    ∀ chunk, chunk ∈ d.chunks → chunk.bytes.length = 72 := by
  obtain ⟨e, hshape, hmsgs⟩ := d.exists_marked
  have hshows := (Delivery.reportsExactly_iff e).mp (h e hshape)
  have hwhole := e.whole
  rw [hmsgs] at hshows hwhole
  have htotal : 72 * d.msgs.length = (e.chunks.flatMap Chunk.bytes).length := by
    rw [hwhole]
    exact (length_markedStream d.msgs).symm
  have hstream : [] ++ e.chunks.flatMap Chunk.bytes = markedStream d.msgs := hwhole
  have hlengths := (length_of_showsAll hstream hshows).2 htotal
  exact hshape.lengths_iff.mp hlengths

end Shapes

/--
The first part is the exact condition for one delivery: every chunk that passes the
two checks shows the next message, by itself or with what earlier chunks have left.
The second part is for all contents of the fields: exactly when every chunk is one
message and every serial number ends in its array, the messages are reported whatever
the other fields hold.
-/
theorem delivery_reported_iff
    {order : ByteOrder}
    (d : Delivery order) :
    (d.ReportsExactly ↔ ShowsAll order [] d.chunks d.msgs) ∧
      ((∀ e : Delivery order, d.SameShape e → e.ReportsExactly) ↔
        (∀ chunk, chunk ∈ d.chunks → chunk.bytes.length = 72) ∧
          ∀ msg, msg ∈ d.msgs → 0 ∈ msg.serialArray) := by
  have hnone : ([] : Octets).length ≤ 72 := Nat.zero_le 72
  refine ⟨d.reportsExactly_iff, ?_, ?_⟩
  · intro h
    have hlengths := Delivery.lengths_of_forall h
    have hshows := d.reportsExactly_iff.mp (h d ⟨rfl, rfl⟩)
    exact ⟨hlengths, (showsAll_aligned hnone hlengths d.whole).mp hshows⟩
  · rintro ⟨hlengths, hserials⟩ e hshape
    rw [e.reportsExactly_iff,
      showsAll_aligned hnone (hshape.lengths_iff.mpr hlengths) e.whole]
    exact hshape.serials_iff.mpr hserials

section Cuts

/-- A message that says that the camera is active. -/
def cameraMessage : ClientMessage .little where
  bytes := (contextMessage 1).bytes
  length_eq := rfl
  size_eq := rfl

/-- The message cut behind its 60th byte. -/
def splitDelivery : Delivery .little where
  msgs := [cameraMessage]
  chunks :=
    [⟨cameraMessage.bytes.take 60, Nat.le_of_ble_eq_true rfl, Nat.le_of_ble_eq_true rfl⟩,
     ⟨cameraMessage.bytes.drop 60, Nat.le_of_ble_eq_true rfl, Nat.le_of_ble_eq_true rfl⟩]
  whole := rfl

/-- The bytes of two messages that one call gives. -/
def joinedChunk : Chunk where
  bytes := cameraMessage.bytes ++ cameraMessage.bytes
  pos := by
    rw [List.length_append, cameraMessage.length_eq]
    omega
  fits := by
    rw [List.length_append, cameraMessage.length_eq, pageSize]
    omega

def joinedDelivery : Delivery .little where
  msgs := [cameraMessage, cameraMessage]
  chunks := [joinedChunk]
  whole := rfl

/-- Both parts of the message are turned away, and of the two messages one is reported. -/
theorem cut_messages_lost :
    ¬ splitDelivery.ReportsExactly ∧ ¬ joinedDelivery.ReportsExactly := by
  constructor
  · intro h
    rw [Delivery.reportsExactly_iff, splitDelivery, ShowsAll, if_pos (by decide), ShowsAll,
      if_pos (by decide), ShowsAll] at h
    cases h
  · intro h
    have htaken : ¬ TurnedAway .little joinedChunk.bytes := by
      have hsize : claimedSize .little joinedChunk.bytes = 72 := rfl
      have hlength : joinedChunk.bytes.length = 144 := rfl
      rw [TurnedAway, hsize, hlength]
      omega
    rw [Delivery.reportsExactly_iff, joinedDelivery, ShowsAll, if_neg htaken] at h
    obtain ⟨msg, rest, hmsgs, _, hrest⟩ := h
    rw [ShowsAll] at hrest
    rw [hrest] at hmsgs
    cases hmsgs

end Cuts

end StreamFraming

end Poise

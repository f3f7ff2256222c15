import BobUI.Corelib.Io.UrlAuthority

/-!
# The ports of authorities

An authority with a port is `[ userinfo "@" ] host ":" port`.  `setAuthority` finds its colon; the
digits behind it are read modulo the size of `unsigned long`, so that a number that is too large is
told from a port number only if it is too large modulo this size as well.
-/

namespace QUrlPrivate

/-! ### What leaves the port alone -/

/-- A step that keeps the port, keeps an error, and reports no invalid port. -/
structure KeepsPort (d d' : QUrlPrivate) : Prop where
  port : d'.port = d.port
  error : d'.error = d.error ∨
    d.error = none ∧ ∃ e, d'.error = some e ∧ e.code ≠ .InvalidPortError

namespace KeepsPort

variable {d d' d'' : QUrlPrivate}

theorem refl (d : QUrlPrivate) :
  KeepsPort d d
  := ⟨rfl, Or.inl rfl⟩

theorem trans (h : KeepsPort d d') (h' : KeepsPort d' d'') :
  KeepsPort d d''
  := by
  constructor
  · rw [h'.port, h.port]
  · rcases h'.error with heq | ⟨hnone, hsome⟩
    · rw [heq]
      apply h.error
    · rcases h.error with heq' | ⟨hnone', e, he, -⟩
      · rw [heq'] at hnone
        exact Or.inr ⟨hnone, hsome⟩
      · rw [he] at hnone
        cases hnone

variable (d) in
theorem setError {code : ErrorCode} (source : QString) (supplement : ℤ)
    (hcode : code ≠ .InvalidPortError) :
  KeepsPort d (d.setError code source supplement)
  := by
  rw [QUrlPrivate.setError]
  cases h_error : d.error with
  | some e => apply refl
  | none => exact ⟨rfl, Or.inr ⟨h_error, _, rfl, hcode⟩⟩

/-- The host, the user information and the sections that are there do not matter. -/
theorem of_eq (h_port : d'.port = d.port) (h_error : d'.error = d.error) :
  KeepsPort d d'
  := ⟨h_port, Or.inl h_error⟩

end KeepsPort

theorem setUserInfo_keeps (x : HostParsers) (d : QUrlPrivate) (value : QString)
    (mode : ParsingMode) :
  (d.setUserInfo x value mode).port = d.port ∧ (d.setUserInfo x value mode).error = d.error
  := by
  rw [setUserInfo]
  cases value.indexOf colon 0 with
  | none => use rfl
  | some delimIndex => use rfl

theorem setIp6Host_keeps (x : HostParsers) (d : QUrlPrivate) (text value : QString)
    (start : ℕ) (mode : ParsingMode) :
  KeepsPort d (setIp6Host x d text value start mode).1
  := by
  rw [setIp6Host]
  obtain ⟨host, c⟩ := x.parseIp6 text.tail.dropLast mode
  have hhost : KeepsPort d { d with host := host } := KeepsPort.of_eq rfl rfl
  apply hhost.trans
  cases c with
  | none => apply KeepsPort.refl
  | some c =>
    dsimp only
    split_ifs with hend
    · apply KeepsPort.setError
      decide
    · apply KeepsPort.setError
      decide

theorem setBracketedHost_keeps (x : HostParsers) (d : QUrlPrivate) (text value : QString)
    (start : ℕ) (mode : ParsingMode) :
  KeepsPort d (setBracketedHost x d text value start mode).1
  := by
  rw [setBracketedHost]
  split_ifs with hclose hv hlength
  · apply KeepsPort.setError
    decide
  · obtain ⟨host, c⟩ := x.parseIpFuture text mode
    have hhost : KeepsPort d { d with host := host } := KeepsPort.of_eq rfl rfl
    apply hhost.trans
    cases c with
    | none => apply KeepsPort.refl
    | some c =>
      apply KeepsPort.setError
      decide
  · apply KeepsPort.trans _ (setIp6Host_keeps x _ text value start mode)
    apply KeepsPort.setError
    decide
  · apply setIp6Host_keeps

theorem setNormalisedHost_keeps (x : HostParsers) (d : QUrlPrivate) (text value : QString) :
  KeepsPort d (setNormalisedHost x d text value).1
  := by
  rw [setNormalisedHost]
  split_ifs with hempty
  · apply KeepsPort.setError
    decide
  · cases x.parseIp4 (x.qt_ACE_do text) with
    | some ip4 => exact KeepsPort.of_eq rfl rfl
    | none => exact KeepsPort.of_eq rfl rfl

theorem setHostWith_keeps (x : HostParsers) {again : QUrlPrivate → QString → QUrlPrivate × Bool}
    (hagain : ∀ d s, KeepsPort d (again d s).1) (d : QUrlPrivate) (value : QString)
    (start stop : ℕ) (mode : ParsingMode) :
  KeepsPort d (setHostWith x again d value start stop mode).1
  := by
  have hstart : KeepsPort d
      { d with host := [], sectionIsPresent := d.sectionIsPresent ||| Host } :=
    KeepsPort.of_eq rfl rfl
  rw [setHostWith]
  apply hstart.trans
  generalize { d with host := [], sectionIsPresent := d.sectionIsPresent ||| Host } = d
  generalize value.between start stop = text
  generalize (if mode = .TolerantMode then x.qt_urlRecode text else none) = recoded
  split_ifs with hempty hbracket
  · apply KeepsPort.refl
  · apply setBracketedHost_keeps
  · cases x.parseIp4 text with
    | some ip4 => exact KeepsPort.of_eq rfl rfl
    | none =>
      cases recoded with
      | none => apply setNormalisedHost_keeps
      | some s =>
        dsimp only
        cases s.indexOf 0x25 0 with
        | some pos =>
          apply KeepsPort.setError
          decide
        | none => apply hagain

theorem setHost_keeps (x : HostParsers) (d : QUrlPrivate) (value : QString) (start stop : ℕ)
    (mode : ParsingMode) :
  KeepsPort d (d.setHost x value start stop mode).1
  := by
  apply setHostWith_keeps
  intro d s
  apply setHostWith_keeps
  intro d s
  apply KeepsPort.refl

/-! ### The value of the port -/

/-- The number that digits stand for, behind those of `x`. -/
def valueFrom (x : ℕ) (port : QString) : ℕ :=
  port.foldl (fun x c => x * 10 + (c.toNat - 0x30)) x

/-- The number that digits stand for. -/
def value (port : QString) : ℕ :=
  valueFrom 0 port

variable (data : DataModel)

/-- Digits are read as their number, modulo the size of `unsigned long`. -/
theorem readPort_digits {port : QString} (h : ∀ c ∈ port, isAsciiDigit c = true) (x : ℕ) :
  readPort data (x % 2 ^ data.ulongBits) port = valueFrom x port % 2 ^ data.ulongBits
  := by
  induction port generalizing x with
  | nil => rfl
  | cons c rest ih =>
    rw [List.forall_mem_cons] at h
    rw [readPort, if_pos h.1]
    have hnext : (x % 2 ^ data.ulongBits * 10 % 2 ^ data.ulongBits + (c.toNat - 0x30))
          % 2 ^ data.ulongBits
        = (x * 10 + (c.toNat - 0x30)) % 2 ^ data.ulongBits := by
      rw [Nat.mod_mul_mod, Nat.mod_add_mod]
    rw [hnext, ih h.2]
    rfl

/-- Another character makes the port invalid. -/
theorem readPort_other {port : QString} (h : ∃ c ∈ port, isAsciiDigit c = false) (x : ℕ) :
  readPort data x port = 2 ^ data.ulongBits - 1
  := by
  induction port generalizing x with
  | nil =>
    obtain ⟨c, hc, -⟩ := h
    cases hc
  | cons c rest ih =>
    rw [readPort]
    split_ifs with hc
    · apply ih
      obtain ⟨c', hmem, hc'⟩ := h
      rcases List.mem_cons.mp hmem with rfl | hmem
      · rw [hc] at hc'
        cases hc'
      · use c'
    · rfl

theorem large_ulong :
  65535 < 2 ^ data.ulongBits - 1
  := by
  cases data with
  | llp64 => decide
  | lp64 => decide

/-! ### Authorities with a port -/

/-- An authority with a port: `[ userinfo "@" ] host ":" port`.  The colon is the last one outside
of brackets. -/
structure AuthorityText where
  userInfo : Option QString
  host : QString
  port : QString
  userInfo_at : ∀ u, userInfo = some u → at_ ∉ u
  no_at : userInfo = none → at_ ∉ host ++ colon :: port
  host_bracket : host.head? = some openBracket → closeBracket ∈ host
  port_colon : colon ∉ port

namespace AuthorityText

/-- The user information with its delimiter. -/
def login (a : AuthorityText) : QString :=
  a.userInfo.elim [] (· ++ [at_])

def text (a : AuthorityText) : QString :=
  a.login ++ (a.host ++ colon :: a.port)

/-- The authority in a longer text. -/
def within (a : AuthorityText) (before after : QString) : QString :=
  before ++ (a.text ++ after)

/-- In strict mode, the user information has no character that may not stand there. -/
def UserInfoAccepted (a : AuthorityText) (before after : QString) (mode : ParsingMode) : Prop :=
  mode = .StrictMode → ∀ u, a.userInfo = some u →
    firstForbidden .UserInfo (a.within before after) before.length (before.length + u.length) = none

/-- In strict mode, the host has no character that may not stand there. -/
def HostAccepted (a : AuthorityText) (before after : QString) (mode : ParsingMode) : Prop :=
  mode = .StrictMode → firstForbidden .Host (a.within before after)
    (before.length + a.login.length) (before.length + a.login.length + a.host.length) = none

variable (a : AuthorityText) (before after : QString)

theorem within_some {u : QString} (h : a.userInfo = some u) :
  a.within before after = before ++ (u ++ at_ :: (a.host ++ colon :: a.port ++ after))
    ∧ a.login.length = u.length + 1
  := by
  rw [within, text, login, h]
  simp

theorem within_none (h : a.userInfo = none) :
  a.within before after = before ++ (a.host ++ colon :: a.port ++ after) ∧ a.login = []
  := by
  rw [within, text, login, h]
  simp

theorem text_length :
  a.text.length = a.login.length + (a.host.length + (a.port.length + 1))
  := by
  rw [text, List.length_append, List.length_append, List.length_cons]

/-- What `readUserInfo` does. -/
theorem readUserInfo_ends (x : HostParsers) {d : QUrlPrivate} (h_error : d.error = none)
    (mode : ParsingMode) :
  (a.UserInfoAccepted before after mode → ∃ d',
      readUserInfo x d (a.within before after) before.length (before.length + a.text.length) mode
        = .ok (d', before.length + a.login.length)
      ∧ d'.port = d.port ∧ d'.error = none)
    ∧ (¬ a.UserInfoAccepted before after mode → ∃ d' e,
      readUserInfo x d (a.within before after) before.length (before.length + a.text.length) mode
        = .error d'
      ∧ d'.error = some e ∧ e.code ≠ .InvalidPortError)
  := by
  cases huser : a.userInfo with
  | none =>
    obtain ⟨hwithin, hlogin⟩ := a.within_none before after huser
    have hread : readUserInfo x d (a.within before after) before.length
        (before.length + a.text.length) mode = .ok (d, before.length + a.login.length) := by
      rw [readUserInfo, hlogin]
      cases hat : (a.within before after).indexOf at_ before.length with
      | none => rfl
      | some i =>
        rw [hwithin] at hat
        have hle := QString.le_of_indexOf (a.no_at huser) hat
        apply if_neg
        rw [text, hlogin, List.nil_append]
        omega
    constructor
    · intro _
      use d, hread, rfl
    · intro hnot
      apply absurd _ hnot
      intro _ u hu
      rw [huser] at hu
      cases hu
  | some u =>
    obtain ⟨hwithin, hlogin⟩ := a.within_some before after huser
    have hat : (a.within before after).indexOf at_ before.length
        = some (before.length + u.length) := by
      rw [hwithin]
      apply QString.indexOf_append (a.userInfo_at u huser)
    have hlt : before.length + u.length < before.length + a.text.length := by
      rw [text_length, hlogin]
      omega
    obtain ⟨h_port, hkeep⟩ := setUserInfo_keeps x d
      ((a.within before after).between before.length (before.length + u.length)) mode
    rw [h_error] at hkeep
    rw [readUserInfo, hat, hlogin]
    dsimp only
    rw [if_pos hlt]
    cases mode with
    | TolerantMode =>
      constructor
      · intro _
        exact ⟨_, rfl, h_port, hkeep⟩
      · intro hnot
        apply absurd _ hnot
        intro hmode
        cases hmode
    | StrictMode =>
      simp only [validateComponent]
      cases hfirst : firstForbidden .UserInfo (a.within before after) before.length
          (before.length + u.length) with
      | none =>
        constructor
        · intro _
          exact ⟨_, rfl, h_port, hkeep⟩
        · intro hnot
          apply absurd _ hnot
          intro _ u' hu'
          rw [huser, Option.some_inj] at hu'
          rw [← hu', hfirst]
      | some i =>
        constructor
        · intro hall
          have hnone := hall rfl u huser
          rw [hfirst] at hnone
          cases hnone
        · intro _
          refine ⟨_, ⟨a.within before after, i,
            sectionError .UserInfo (a.within before after) before.length i⟩, rfl, ?_, ?_⟩
          · rw [setError, hkeep]
          · rw [sectionError]
            split_ifs with hcolon
            · intro heq
              cases heq
            · intro heq
              cases heq

/-- The colon is found. -/
theorem colonIndex_eq :
  colonIndex (a.within before after) (before.length + a.login.length)
      (before.length + a.text.length)
    = some (before.length + a.login.length + a.host.length)
  := by
  have hwithin : a.within before after
      = before ++ a.login ++ a.host ++ colon :: (a.port ++ after) := by
    simp [within, text]
  have hlength : (before ++ a.login ++ a.host).length
      = before.length + a.login.length + a.host.length := by
    simp only [List.length_append]
  have hlast : (a.within before after).lastIndexOf colon (before.length + a.text.length - 1)
      = some (before.length + a.login.length + a.host.length) := by
    have hstop : before.length + a.text.length - 1
        = (before ++ a.login ++ a.host).length + a.port.length := by
      rw [hlength, text_length]
      omega
    rw [hstop, hwithin, QString.lastIndexOf_append a.port_colon, hlength]
  rw [colonIndex, hlast]
  dsimp only
  rw [if_neg (by omega)]
  split_ifs with hbracket
  · have hhead : (a.within before after)[before.length + a.login.length]?
        = (a.host ++ colon :: (a.port ++ after))[0]? := by
      rw [hwithin, List.append_assoc, List.getElem?_append_right]
      · simp
      · simp
    have hhost : closeBracket ∈ a.host := by
      apply a.host_bracket
      rw [hhead] at hbracket
      cases hhost : a.host with
      | nil =>
        rw [hhost] at hbracket
        cases hbracket
      | cons c rest =>
        rw [hhost] at hbracket
        apply hbracket
    obtain ⟨first, rest, hsplit, hnot⟩ := List.eq_append_cons_of_mem hhost
    have hclose : (a.within before after).indexOf closeBracket (before.length + a.login.length)
        = some (before.length + a.login.length + first.length) := by
      have hpieces : a.within before after = before ++ a.login
          ++ (first ++ closeBracket :: (rest ++ colon :: (a.port ++ after))) := by
        rw [hwithin, hsplit]
        simp
      rw [hpieces, ← List.length_append, QString.indexOf_append hnot]
    rw [hclose]
    apply if_neg
    rw [hsplit, List.length_append]
    omega
  · rfl

/-- What `setPort` does. -/
theorem setPort_ends (h_port : a.port ≠ []) {d : QUrlPrivate} (h_error : d.error = none)
    (mode : ParsingMode) :
  (readPort data 0 a.port ≤ 65535 →
      setPort data d (a.within before after)
        (some (before.length + a.login.length + a.host.length)) (before.length + a.text.length) mode
        = .ok { d with port := readPort data 0 a.port })
    ∧ (65535 < readPort data 0 a.port → ∃ d' e, d'.error = some e ∧ e.code = .InvalidPortError ∧
      setPort data d (a.within before after)
        (some (before.length + a.login.length + a.host.length)) (before.length + a.text.length) mode
        = if mode = .StrictMode then .error d' else .ok d')
  := by
  have hpos : 0 < a.port.length := List.length_pos_iff.mpr h_port
  have hbetween : (a.within before after).between
      (before.length + a.login.length + a.host.length + 1) (before.length + a.text.length)
        = a.port := by
    have hwithin : a.within before after
        = before ++ a.login ++ a.host ++ [colon] ++ (a.port ++ after) := by
      simp [within, text]
    have hstart : before.length + a.login.length + a.host.length + 1
        = (before ++ a.login ++ a.host ++ [colon]).length := by
      simp only [List.length_append, List.length_singleton]
    have hstop : before.length + a.text.length
        = (before ++ a.login ++ a.host ++ [colon]).length + a.port.length := by
      rw [← hstart, text_length]
      omega
    rw [hstart, hstop, hwithin, QString.between_append]
  rw [setPort]
  dsimp only
  rw [if_pos (by rw [text_length]; omega), hbetween]
  constructor
  · intro hsmall
    have hmod : readPort data 0 a.port % 2 ^ 16 = readPort data 0 a.port :=
      Nat.mod_eq_of_lt (by omega)
    rw [hmod, if_pos rfl]
  · intro hlarge
    have hmod : readPort data 0 a.port ≠ readPort data 0 a.port % 2 ^ 16 := by
      have hlt := Nat.mod_lt (readPort data 0 a.port) (by decide : 2 ^ 16 > 0)
      omega
    refine ⟨d.setError .InvalidPortError (a.within before after)
      (before.length + a.login.length + a.host.length + 1 : ℕ),
      ⟨a.within before after,
        (before.length + a.login.length + a.host.length + 1 : ℕ), .InvalidPortError⟩, ?_, rfl, ?_⟩
    · rw [setError, h_error]
    · rw [if_neg hmod]
      cases mode with
      | TolerantMode => rfl
      | StrictMode => rfl

/-- What `readHost` does. -/
theorem readHost_ends (x : HostParsers) (d : QUrlPrivate) (mode : ParsingMode) :
  ∃ d', KeepsPort d d' ∧
    (a.HostAccepted before after mode → readHost x d (a.within before after)
      (before.length + a.login.length) (before.length + a.login.length + a.host.length) mode
        = .ok d')
    ∧ (¬ a.HostAccepted before after mode → readHost x d (a.within before after)
      (before.length + a.login.length) (before.length + a.login.length + a.host.length) mode
        = .error d')
  := by
  have hset := setHost_keeps x d (a.within before after) (before.length + a.login.length)
    (before.length + a.login.length + a.host.length) mode
  simp only [readHost]
  cases mode with
  | TolerantMode =>
    refine ⟨_, hset, fun _ => rfl, ?_⟩
    intro hnot
    apply absurd _ hnot
    intro hmode
    cases hmode
  | StrictMode =>
    simp only [validateComponent]
    cases hfirst : firstForbidden .Host (a.within before after)
        (before.length + a.login.length)
        (before.length + a.login.length + a.host.length) with
    | none =>
      refine ⟨_, hset, fun _ => rfl, ?_⟩
      intro hnot
      apply absurd _ hnot
      intro _
      apply hfirst
    | some i =>
      refine ⟨_, ?_, ?_, fun _ => rfl⟩
      · apply hset.trans
        apply (KeepsPort.setError _ (a.within before after) i _).trans
        · exact KeepsPort.of_eq rfl rfl
        · rw [sectionError]
          decide
      · intro hall
        have hnone := hall rfl
        rw [hfirst] at hnone
        cases hnone

end AuthorityText

/-- Whether the object has an error of a kind. -/
def Reports (d : QUrlPrivate) (code : ErrorCode) : Prop :=
  ∃ e, d.error = some e ∧ e.code = code

/-- The port that should have been read: the value of its digits, if that is a port number;
an error otherwise. -/
structure PortRead (d : QUrlPrivate) (port : QString) : Prop where
  legal : port.all isAsciiDigit = true → value port ≤ 65535 →
    d.port = value port ∧ ¬ d.Reports .InvalidPortError
  outOfRange : port.all isAsciiDigit = true → 65535 < value port → d.Reports .InvalidPortError
  otherCharacter : port.all isAsciiDigit = false → d.error ≠ none

/-- The condition that the port is read as it should be.  In strict mode the other parts must be
accepted; and a number that is too large must be so modulo the size of `unsigned long`. -/
def Readable (a : AuthorityText) (before after : QString) (mode : ParsingMode) : Prop :=
  a.port.all isAsciiDigit = true →
    a.UserInfoAccepted before after mode
      ∧ (value a.port ≤ 65535 → a.HostAccepted before after mode)
      ∧ (65535 < value a.port → 65535 < value a.port % 2 ^ data.ulongBits)

theorem not_reports {d : QUrlPrivate} {e : Error} (h : d.error = some e) {code : ErrorCode}
    (hcode : e.code ≠ code) :
  ¬ d.Reports code
  := by
  rintro ⟨e', he', heq⟩
  rw [h, Option.some_inj] at he'
  rw [he'] at hcode
  apply hcode heq

theorem KeepsPort.not_reports {d d' : QUrlPrivate} (h : KeepsPort d d') (h_error : d.error = none) :
  ¬ d'.Reports .InvalidPortError
  := by
  rcases h.error with heq | ⟨-, e, he, hcode⟩
  · rintro ⟨e, he, -⟩
    rw [heq, h_error] at he
    cases he
  · apply QUrlPrivate.not_reports he hcode

theorem KeepsPort.reports {d d' : QUrlPrivate} (h : KeepsPort d d') {code : ErrorCode}
    (hreports : d.Reports code) :
  d'.Reports code
  := by
  obtain ⟨e, he, hcode⟩ := hreports
  rcases h.error with heq | ⟨hnone, -⟩
  · use e, heq.trans he
  · rw [hnone] at he
    cases he

section

variable (x : HostParsers) {d : QUrlPrivate} (h_error : d.error = none) (a : AuthorityText)
  (before after : QString) (isNull : Bool) (mode : ParsingMode) (h_port : a.port ≠ [])

include h_error h_port

/-- What `setAuthority` does with an authority with a port. -/
theorem setAuthority_ends :
  ∃ d', setAuthority data x d (a.within before after) isNull before.length
      (before.length + a.text.length) mode = d'
    ∧ (¬ a.UserInfoAccepted before after mode → ¬ d'.Reports .InvalidPortError
      ∧ d'.port = -1 ∧ d'.error ≠ none)
    ∧ (a.UserInfoAccepted before after mode → readPort data 0 a.port ≤ 65535 →
      ¬ d'.Reports .InvalidPortError
        ∧ (a.HostAccepted before after mode → d'.port = readPort data 0 a.port)
        ∧ (¬ a.HostAccepted before after mode → d'.port = -1))
    ∧ (a.UserInfoAccepted before after mode → 65535 < readPort data 0 a.port →
      d'.Reports .InvalidPortError)
  := by
  obtain ⟨haccepted, hrejected⟩ := a.readUserInfo_ends before after x
    (d := { d with sectionIsPresent := d.sectionIsPresent &&& ~~~Authority, port := -1 }) h_error
    mode
  have hmin : (some (before.length + a.login.length + a.host.length)).elim
      (before.length + a.text.length) (min (before.length + a.text.length))
        = before.length + a.login.length + a.host.length := by
    apply Nat.min_eq_right
    rw [a.text_length]
    omega
  have hstart : before.length ≠ before.length + a.text.length := by
    rw [a.text_length]
    omega
  rw [setAuthority]
  dsimp only
  rw [if_neg hstart]
  refine ⟨_, rfl, ?_, ?_, ?_⟩
  · intro hnot
    obtain ⟨d', e, hread, he, hcode⟩ := hrejected hnot
    rw [hread]
    use not_reports he hcode, rfl
    change d'.error ≠ none
    rw [he]
    apply Option.some_ne_none
  · intro huser hsmall
    obtain ⟨d₁, hread, -, hnone⟩ := haccepted huser
    have hset := (a.setPort_ends data before after h_port hnone mode).1 hsmall
    obtain ⟨d₂, hkeeps, hok, hfail⟩ := a.readHost_ends before after x
      { d₁ with port := readPort data 0 a.port } mode
    have hnot := hkeeps.not_reports hnone
    rw [hread]
    dsimp only [bind, Except.bind]
    rw [a.colonIndex_eq before after, hset]
    dsimp only
    rw [hmin]
    by_cases hhost : a.HostAccepted before after mode
    · rw [hok hhost]
      use hnot
      constructor
      · intro _
        apply hkeeps.port
      · intro hnot_host
        apply absurd hhost hnot_host
    · rw [hfail hhost]
      use hnot
      constructor
      · intro hhost'
        apply absurd hhost' hhost
      · intro _
        rfl
  · intro huser hlarge
    obtain ⟨d₁, hread, -, hnone⟩ := haccepted huser
    obtain ⟨d₂, e, he, hcode, hset⟩ :=
      (a.setPort_ends data before after h_port hnone mode).2 hlarge
    have hreports : d₂.Reports .InvalidPortError := ⟨e, he, hcode⟩
    rw [hread]
    dsimp only [bind, Except.bind]
    rw [a.colonIndex_eq before after, hset]
    cases mode with
    | StrictMode => exact hreports
    | TolerantMode =>
      obtain ⟨d₃, hkeeps, hok, -⟩ := a.readHost_ends before after x d₂ .TolerantMode
      rw [if_neg (by decide)]
      dsimp only
      rw [hmin, hok fun hmode => by cases hmode]
      apply hkeeps.reports hreports

/-- `setAuthority` reads the port as it should be if and only if it is readable. -/
theorem setAuthority_port_iff :
  (setAuthority data x d (a.within before after) isNull before.length
      (before.length + a.text.length) mode).PortRead a.port
    ↔ Readable data a before after mode
  := by
  obtain ⟨d', h_eq, h_rejected, h_small, h_large⟩ := setAuthority_ends data x h_error a before after
    isNull mode h_port
  rw [h_eq]
  by_cases h_digits : a.port.all isAsciiDigit = true
  · have h_read : readPort data 0 a.port = value a.port % 2 ^ data.ulongBits := by
      have h_all := List.all_eq_true.mp h_digits
      rw [value, ← readPort_digits data h_all 0, Nat.zero_mod]
    have h_fits : value a.port ≤ 65535 → readPort data 0 a.port = value a.port := by
      intro h_le
      rw [h_read]
      apply Nat.mod_eq_of_lt
      have h_ulong := large_ulong data
      omega
    constructor
    · intro h_portRead _
      by_cases h_user : a.UserInfoAccepted before after mode
      · use h_user
        constructor
        · intro h_le
          by_contra h_host
          have h_minus := (h_small h_user (by rw [h_fits h_le]; apply h_le)).2.2 h_host
          rw [(h_portRead.legal h_digits h_le).1] at h_minus
          omega
        · intro h_lt
          by_contra h_wraps
          rw [← h_read, Nat.not_lt] at h_wraps
          exact (h_small h_user h_wraps).1 (h_portRead.outOfRange h_digits h_lt)
      · obtain ⟨h_not, h_minus, -⟩ := h_rejected h_user
        rcases Nat.lt_or_ge 65535 (value a.port) with h_lt | h_le
        · exact (h_not (h_portRead.outOfRange h_digits h_lt)).elim
        · rw [(h_portRead.legal h_digits h_le).1] at h_minus
          omega
    · intro h_readable
      obtain ⟨h_user, h_host, h_wraps⟩ := h_readable h_digits
      constructor
      · intro _ h_le
        obtain ⟨h_not, h_value, -⟩ := h_small h_user (by rw [h_fits h_le]; apply h_le)
        rw [h_value (h_host h_le), h_fits h_le]
        use rfl
      · intro _ h_lt
        apply h_large h_user
        rw [h_read]
        apply h_wraps h_lt
      · intro h_other
        rw [h_digits] at h_other
        cases h_other
  · have h_read : 65535 < readPort data 0 a.port := by
      rw [readPort_other]
      · apply large_ulong
      · rw [Bool.not_eq_true, List.all_eq_false] at h_digits
        simpa only [Bool.not_eq_true] using h_digits
    constructor
    · intro _ h_digits'
      apply absurd h_digits' h_digits
    · intro _
      constructor
      · intro h_digits'
        apply absurd h_digits' h_digits
      · intro h_digits'
        apply absurd h_digits' h_digits
      · intro _
        by_cases h_user : a.UserInfoAccepted before after mode
        · obtain ⟨e, h_e, -⟩ := h_large h_user h_read
          rw [h_e]
          apply Option.some_ne_none
        · apply (h_rejected h_user).2.2

end

/-- Parsers that leave a text as it is, as the real ones do with a host in lower case. -/
def plainParsers : HostParsers :=
  ⟨fun s _ => s, fun s _ => s, fun _ => none, fun s _ => (s, none), fun s _ => (s, none),
    fun _ => none, fun s => s⟩

/-- An object without a part. -/
def empty : QUrlPrivate :=
  ⟨-1, [], [], [], none, 0⟩

/-- `h:8080`. -/
def smallAuthority : AuthorityText where
  userInfo := none
  host := [0x68]
  port := [0x38, 0x30, 0x38, 0x30]
  userInfo_at u h := by cases h
  no_at _ := by decide
  host_bracket h := by cases h
  port_colon := by decide

theorem setAuthority_port_iff_small :
  (setAuthority .lp64 plainParsers empty (smallAuthority.within [] []) false 0 6
    .TolerantMode).PortRead smallAuthority.port
  := by
  apply (setAuthority_port_iff .lp64 plainParsers (d := empty) rfl smallAuthority [] [] false
    .TolerantMode (by decide)).mpr
  intro _
  use fun h_mode => by cases h_mode
  use fun _ h_mode => by cases h_mode
  decide

/-- `h:18446744073709551616`, with the first port number that an `unsigned long` of 64 bits does not
hold. -/
def largeAuthority : AuthorityText where
  userInfo := none
  host := [0x68]
  port := [0x31, 0x38, 0x34, 0x34, 0x36, 0x37, 0x34, 0x34, 0x30, 0x37, 0x33, 0x37, 0x30, 0x39, 0x35,
    0x35, 0x31, 0x36, 0x31, 0x36]
  userInfo_at u h := by cases h
  no_at _ := by decide
  host_bracket h := by cases h
  port_colon := by decide

/-- The port 2^64 is read as 0, and no error is reported. -/
theorem setAuthority_wraps :
  (setAuthority .lp64 plainParsers empty (largeAuthority.within [] []) false 0 22
      .TolerantMode).port = 0
    ∧ ¬ (setAuthority .lp64 plainParsers empty (largeAuthority.within [] []) false 0 22
      .TolerantMode).PortRead largeAuthority.port
  := by
  constructor
  · decide
  · intro h
    obtain ⟨e, h_e, -⟩ := h.outOfRange (by decide) (by decide)
    have h_none : (setAuthority .lp64 plainParsers empty (largeAuthority.within [] []) false 0 22
      .TolerantMode).error = none := by decide
    rw [h_none] at h_e
    cases h_e

end QUrlPrivate

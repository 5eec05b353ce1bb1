import FuzzSoft.Prog.Types

/-!
# The syscall table

The descriptions of `syscalls.rs`, under their own names and in their own order: the flag and string
tables, the struct layouts, and `SYSCALLS`. The names of struct fields, which no function reads, are
left out.
-/

namespace FuzzSoft

/-! ## Flags, constants and strings -/

def OPEN_FLAGS : List U32 :=
  [0, 1, 2, 0o200, 0o100, 0o1000, 0o2000, 0o40000, 0o200000, 0o2000000, 0o4000, 0x20000, 0x200000,
   0x410000]
def OPEN_MODE : List U32 := [0o600, 0o644, 0o755, 0o777, 0]
def AF_FAMILY : List U32 := [1, 2]
def SOCK_TYPE : List U32 := [1, 2]
def SEND_FLAGS : List U32 := [0, 0x40, 0x4000]
def SEEK_WHENCE : List U32 := [0, 1, 2]
def O_FLAGS_SETFL : List U32 := [0o2000, 0o4000, 0o10000]
def MEMFD_FLAGS : List U32 := [0, 1, 2, 3]
def PRCTL_OPTION : List U32 := [15, 16, 38, 4, 1, 2, 3, 22, 23, 24]
def IOCTL_CMD : List U32 := [0x541B, 0x5421, 0x5401]
def FACCESSAT_MODE : List U32 := [0, 1, 2, 4]
def STATX_MASK : List U32 := [0x7ff, 0x800]
def PATH_POOL : List String := ["/", "/dev/null", "/proc/self/maps", "/tmp/x"]
def MEMFD_NAMES : List String := ["a", "fuzz", ""]
def MMAP_PROT : List U32 := [0, 1, 2, 4, (1 ||| 2), (1 ||| 4)]
def MMAP_FLAGS : List U32 := [0x01, 0x02, 0x10, 0x20, 0x4000, 0x8000, 0x20000, (0x02 ||| 0x20)]
def MADV_ADVICE : List U32 := [0, 1, 4, 8]
def EFD_FLAGS : List U32 := [0, 1, 0o2000000, 0o4000]
def EPOLL_CREATE_FLAGS : List U32 := [0, 0o2000000]
def EPOLL_OP : List U32 := [1, 2, 3]
def EPOLL_EVENTS : List U32 :=
  [0x00000001, 0x00000004, 0x00000008, 0x00000010, 0x00002000, 0x40000000, 0x80000000]
def IN_INIT_FLAGS : List U32 := [0, 0o2000000, 0o4000]
def IN_MASK : List U32 :=
  [0x00000001, 0x00000002, 0x00000004, 0x00000008, 0x00000020, 0x00000100, 0x00000200, 0x40000000]
def FLOCK_OP : List U32 := [1, 2, 4, 8]
def CLOCKIDS : List U32 := [0, 1, 7]
def TFD_FLAGS : List U32 := [0, 0o2000000, 0o4000]
def TFD_SETTIME_FLAGS : List U32 := [0, 1]
def SFD_FLAGS : List U32 := [0, 0o2000000, 0o4000]
def SOCKOPT_LEVEL : List U32 := [1]
def SOCKOPT_NAME : List U32 := [2, 4, 6, 7, 8, 9]
def SHUTDOWN_HOW : List U32 := [0, 1, 2]
def ACCEPT4_FLAGS : List U32 := [0, 0o2000000, 0o4000]
def FALLOCATE_MODE : List U32 := [0x00, 0x01, 0x02, 0x10]
def CLOSE_RANGE_FLAGS : List U32 := [0, 2, 4]
def FD_FLAGS : List U32 := [0, 1]
def RWF_FLAGS : List U32 := [0x00, 0x01, 0x02, 0x04, 0x08]
def F_DUPFD_CLOEXEC : U32 := 1030
def TCGETS : U32 := 0x5401
def TCSETS : U32 := 0x5402
def TIOCGWINSZ : U32 := 0x5413
def TIOCSWINSZ : U32 := 0x5414
def FIONREAD : U32 := 0x541B
def FIONBIO : U32 := 0x5421
def SIOCGIFCONF : U32 := 0x8912
def SIOCGIFFLAGS : U32 := 0x8913
def AF_NETLINK : U32 := 16
def NETLINK_SOCK_TYPE : List U32 := [2, 3]
def NETLINK_PROTO : List U32 := [0, 4]
def SUN_PATHS : List String := ["/tmp/s", "/tmp/y", ""]
def IPPROTO_TCP : U32 := 6
def SOL_SOCKET : U32 := 1
def SO_REUSEADDR : U32 := 2
def TCP_NODELAY : U32 := 1
def TIOCGPGRP : U32 := 0x540F
def TIOCSPGRP : U32 := 0x5410
def FIOASYNC : U32 := 0x5452
def SIOCSIFFLAGS : U32 := 0x8914
def SIOCGIFHWADDR : U32 := 0x8927
def SO_SNDBUF : U32 := 7
def SOL_NETLINK : U32 := 270
def NETLINK_ADD_MEMBERSHIP : U32 := 1
def FAIL_NTH_PATH : List String := ["/proc/self/fail-nth"]
def FAIL_NTH_COUNTS : List String := ["0", "1", "2", "3", "5", "8", "16"]
def SPLICE_FLAGS : List U32 := [0, 0x01, 0x02, 0x04, 0x08]
def UNSHARE_FLAGS : List U32 :=
  [0x00000200, 0x00000400, 0x00000080, 0x00010000, 0x00020000, 0x00040000, 0x02000000, 0x04000000,
   0x08000000, 0x10000000, 0x20000000, 0x40000000]
def NSTYPE_FLAGS : List U32 :=
  [0, 0x00000080, 0x00020000, 0x02000000, 0x04000000, 0x08000000, 0x10000000, 0x20000000,
   0x40000000]
def NS_PATHS : List String :=
  ["/proc/self/ns/mnt", "/proc/self/ns/uts", "/proc/self/ns/ipc", "/proc/self/ns/user",
   "/proc/self/ns/pid", "/proc/self/ns/net", "/proc/self/ns/time"]
def KEY_TYPES : List String := ["user", "keyring", "logon"]
def KEY_DESCRIPTIONS : List String := ["fuzzkey", "a", ""]
def KEY_CALLOUT_INFO : List String := ["-", "fuzz"]
def KEYRING_SPECIAL : List U32 := [0xffffffff, 0xfffffffe, 0xfffffffd, 0xfffffffc, 0xfffffffb]
def KEYCTL_GET_KEYRING_ID : U32 := 0
def KEYCTL_REVOKE : U32 := 3
def KEYCTL_UNLINK : U32 := 9
def KEYCTL_READ : U32 := 11
def KEYCTL_DESCRIBE : U32 := 6

/-! ## Structs -/

def REMOTE_IOVEC_FIELDS : List ArgType := [.int 32 false, .int 32 false]
def REMOTE_IOVEC : ArgType := .struct REMOTE_IOVEC_FIELDS
def REMOTE_IOVEC2_FIELDS : List ArgType := [REMOTE_IOVEC, REMOTE_IOVEC]
def REMOTE_IOVEC2 : ArgType := .struct REMOTE_IOVEC2_FIELDS
def SOCKADDR_FIELDS : List ArgType := [.flags AF_FAMILY false, .buffer (.fixed 14)]
def SOCKADDR : ArgType := .struct SOCKADDR_FIELDS
def STATX_BUF : ArgType := .buffer (.fixed 256)
def IOVEC_FIELDS : List ArgType := [.ptr .in (.buffer (.range 0 64)) false, .int 32 false]
def IOVEC : ArgType := .struct IOVEC_FIELDS
def IOVEC2_FIELDS : List ArgType := [IOVEC, IOVEC]
def IOVEC2 : ArgType := .struct IOVEC2_FIELDS
def MSGHDR_FIELDS : List ArgType :=
  [.ptr .in SOCKADDR true, .int 32 false, .ptr .in IOVEC2 false, .const 2,
   .ptr .in (.buffer (.fixed 16)) true, .int 32 false, .int 32 false]
def MSGHDR : ArgType := .struct MSGHDR_FIELDS
def EPOLL_EVENT_FIELDS : List ArgType := [.flags EPOLL_EVENTS true, .int 32 false, .int 32 false]
def EPOLL_EVENT : ArgType := .struct EPOLL_EVENT_FIELDS
def TIMESPEC64_FIELDS : List ArgType := [.int 64 true, .int 64 true]
def TIMESPEC64 : ArgType := .struct TIMESPEC64_FIELDS
def ITIMERSPEC64_FIELDS : List ArgType := [TIMESPEC64, TIMESPEC64]
def ITIMERSPEC64 : ArgType := .struct ITIMERSPEC64_FIELDS
def OPEN_HOW_FIELDS : List ArgType := [.int 64 false, .int 64 false, .int 64 false]
def OPEN_HOW : ArgType := .struct OPEN_HOW_FIELDS
def WINSIZE_FIELDS : List ArgType := [.int 16 false, .int 16 false, .int 16 false, .int 16 false]
def WINSIZE : ArgType := .struct WINSIZE_FIELDS
def TERMIOS_FIELDS : List ArgType :=
  [.int 32 false, .int 32 false, .int 32 false, .int 32 false, .int 8 false, .buffer (.fixed 19)]
def TERMIOS : ArgType := .struct TERMIOS_FIELDS
def IFREQ_FIELDS : List ArgType := [.buffer (.fixed 16), .buffer (.fixed 16)]
def IFREQ : ArgType := .struct IFREQ_FIELDS
def IFCONF_FIELDS : List ArgType := [.int 32 false, .ptr .out (.buffer (.fixed 128)) false]
def IFCONF : ArgType := .struct IFCONF_FIELDS
def SOCKADDR_IN_FIELDS : List ArgType :=
  [.const 2, .int 16 false, .int 32 false, .buffer (.fixed 8)]
def SOCKADDR_IN : ArgType := .struct SOCKADDR_IN_FIELDS
def SOCKADDR_UN_FIELDS : List ArgType := [.const 1, .stringConst SUN_PATHS]
def SOCKADDR_UN : ArgType := .struct SOCKADDR_UN_FIELDS
def SOCKADDR_NL_FIELDS : List ArgType :=
  [.const AF_NETLINK, .const 0, .int 32 false, .int 32 false]
def SOCKADDR_NL : ArgType := .struct SOCKADDR_NL_FIELDS
def NLMSG_FIELDS : List ArgType :=
  [.int 32 false, .int 16 false, .int 16 false, .int 32 false, .int 32 false, .buffer (.fixed 16)]
def NLMSG : ArgType := .struct NLMSG_FIELDS
def IOVEC_NL_FIELDS : List ArgType := [.ptr .in NLMSG false, .int 32 false]
def IOVEC_NL : ArgType := .struct IOVEC_NL_FIELDS
def MSGHDR_NL_FIELDS : List ArgType :=
  [.ptr .in SOCKADDR_NL true, .int 32 false, .ptr .in IOVEC_NL false, .const 1,
   .ptr .in (.buffer (.fixed 16)) true, .int 32 false, .int 32 false]
def MSGHDR_NL : ArgType := .struct MSGHDR_NL_FIELDS

/-! ## Descriptions -/

def SYSCALLS : List SyscallDesc :=
  [⟨"openat", 56, [.res .fd, .ptr .in (.stringConst PATH_POOL) false, .flags OPEN_FLAGS true,
      .flags OPEN_MODE false], .ret .fd⟩,
   ⟨"read", 63, [.res .fd, .ptr .out (.buffer (.range 0 256)) false, .len 1], .none⟩,
   ⟨"write", 64, [.res .fd, .ptr .in (.buffer (.range 0 256)) false, .len 1], .none⟩,
   ⟨"close", 57, [.res .fd], .none⟩,
   ⟨"llseek", 62, [.res .fd, .int 32 true, .int 32 true, .ptr .out (.int 64 true) false,
      .flags SEEK_WHENCE false], .none⟩,
   ⟨"ioctl$generic", 29, [.res .fd, .flags IOCTL_CMD false, .ptr .inOut (.buffer (.fixed 64)) true],
      .none⟩,
   ⟨"dup", 23, [.res .fd], .ret .fd⟩,
   ⟨"dup3", 24, [.res .fd, .int 32 false, .flags [0o2000000] true], .ret .fd⟩,
   ⟨"fcntl64$dupfd", 25, [.res .fd, .const 0, .int 32 false], .ret .fd⟩,
   ⟨"fcntl64$setfl", 25, [.res .fd, .const 4, .flags O_FLAGS_SETFL true], .none⟩,
   ⟨"pipe2", 59, [.ptr .out (.buffer (.fixed 8)) false, .flags OPEN_FLAGS true],
      .outArray 0 .fd 2⟩,
   ⟨"socket", 198, [.flags AF_FAMILY false, .flags SOCK_TYPE false, .const 0], .ret .sock⟩,
   ⟨"bind", 200, [.res .sock, .ptr .in SOCKADDR false, .len 1], .none⟩,
   ⟨"sendto", 206, [.res .sock, .ptr .in (.buffer (.range 0 128)) false, .len 1,
      .flags SEND_FLAGS true, .ptr .in SOCKADDR true, .len 4], .none⟩,
   ⟨"getcwd", 17, [.ptr .out (.buffer (.range 0 256)) false, .len 0], .none⟩,
   ⟨"faccessat", 48, [.res .fd, .ptr .in (.stringConst PATH_POOL) false,
      .flags FACCESSAT_MODE true, .const 0], .none⟩,
   ⟨"statx", 291, [.res .fd, .ptr .in (.stringConst PATH_POOL) false, .flags [0, 0x1000] true,
      .flags STATX_MASK true, .ptr .out STATX_BUF false], .none⟩,
   ⟨"getdents64", 61, [.res .fd, .ptr .out (.buffer (.range 32 512)) false, .len 1], .none⟩,
   ⟨"memfd_create", 279, [.ptr .in (.stringConst MEMFD_NAMES) false, .flags MEMFD_FLAGS true],
      .ret .fd⟩,
   ⟨"prctl", 167, [.flags PRCTL_OPTION false, .int 32 false, .int 32 false, .int 32 false,
      .int 32 false], .none⟩,
   ⟨"eventfd2", 19, [.int 32 false, .flags EFD_FLAGS true], .ret .fd⟩,
   ⟨"epoll_create1", 20, [.flags EPOLL_CREATE_FLAGS true], .ret .epoll⟩,
   ⟨"epoll_ctl", 21, [.res .epoll, .flags EPOLL_OP false, .res .fd, .ptr .in EPOLL_EVENT true],
      .none⟩,
   ⟨"epoll_pwait", 22, [.res .epoll, .ptr .out EPOLL_EVENT false, .int 32 false, .int 32 true,
      .ptr .in (.buffer (.fixed 8)) true, .len 4], .none⟩,
   ⟨"inotify_init1", 26, [.flags IN_INIT_FLAGS true], .ret .fd⟩,
   ⟨"inotify_add_watch", 27, [.res .fd, .ptr .in (.stringConst PATH_POOL) false,
      .flags IN_MASK true], .none⟩,
   ⟨"inotify_rm_watch", 28, [.res .fd, .int 32 false], .none⟩,
   ⟨"flock", 32, [.res .fd, .flags FLOCK_OP true], .none⟩,
   ⟨"timerfd_create", 85, [.flags CLOCKIDS false, .flags TFD_FLAGS true], .ret .fd⟩,
   ⟨"timerfd_settime64", 411, [.res .fd, .flags TFD_SETTIME_FLAGS true,
      .ptr .in ITIMERSPEC64 false, .ptr .out ITIMERSPEC64 true], .none⟩,
   ⟨"signalfd4", 74, [.res .fd, .ptr .in (.buffer (.fixed 8)) false, .len 1, .flags SFD_FLAGS true],
      .ret .fd⟩,
   ⟨"socketpair", 199, [.flags AF_FAMILY false, .flags SOCK_TYPE false, .const 0,
      .ptr .out (.buffer (.fixed 8)) false], .outArray 3 .sock 2⟩,
   ⟨"listen", 201, [.res .sock, .int 32 false], .none⟩,
   ⟨"accept4", 242, [.res .sock, .ptr .out SOCKADDR true, .ptr .inOut (.int 32 false) true,
      .flags ACCEPT4_FLAGS true], .ret .sock⟩,
   ⟨"connect", 203, [.res .sock, .ptr .in SOCKADDR false, .len 1], .none⟩,
   ⟨"getsockname", 204, [.res .sock, .ptr .out SOCKADDR false, .ptr .inOut (.int 32 false) true],
      .none⟩,
   ⟨"getpeername", 205, [.res .sock, .ptr .out SOCKADDR false, .ptr .inOut (.int 32 false) true],
      .none⟩,
   ⟨"setsockopt", 208, [.res .sock, .flags SOCKOPT_LEVEL false, .flags SOCKOPT_NAME false,
      .ptr .in (.buffer (.fixed 4)) false, .len 3], .none⟩,
   ⟨"getsockopt", 209, [.res .sock, .flags SOCKOPT_LEVEL false, .flags SOCKOPT_NAME false,
      .ptr .out (.buffer (.fixed 4)) false, .ptr .inOut (.int 32 false) false], .none⟩,
   ⟨"shutdown", 210, [.res .sock, .flags SHUTDOWN_HOW false], .none⟩,
   ⟨"recvfrom", 207, [.res .sock, .ptr .out (.buffer (.range 0 128)) false, .len 1,
      .flags SEND_FLAGS true, .ptr .out SOCKADDR true, .ptr .inOut (.int 32 false) true], .none⟩,
   ⟨"sendmsg", 211, [.res .sock, .ptr .in MSGHDR false, .flags SEND_FLAGS true], .none⟩,
   ⟨"recvmsg", 212, [.res .sock, .ptr .out MSGHDR false, .flags SEND_FLAGS true], .none⟩,
   ⟨"mmap2", 222, [.int 32 false, .int 32 false, .flags MMAP_PROT true, .flags MMAP_FLAGS true,
      .res .fd, .int 32 false], .ret .vma⟩,
   ⟨"munmap", 215, [.res .vma, .int 32 false], .none⟩,
   ⟨"mprotect", 226, [.res .vma, .int 32 false, .flags MMAP_PROT true], .none⟩,
   ⟨"madvise", 233, [.res .vma, .int 32 false, .flags MADV_ADVICE false], .none⟩,
   ⟨"ftruncate64", 46, [.res .fd, .int 32 false, .int 32 false], .none⟩,
   ⟨"fallocate", 47, [.res .fd, .flags FALLOCATE_MODE true, .int 32 false, .int 32 false,
      .int 32 false, .int 32 false], .none⟩,
   ⟨"pread64", 67, [.res .fd, .ptr .out (.buffer (.range 0 256)) false, .len 1, .int 32 false,
      .int 32 false], .none⟩,
   ⟨"pwrite64", 68, [.res .fd, .ptr .in (.buffer (.range 0 256)) false, .len 1, .int 32 false,
      .int 32 false], .none⟩,
   ⟨"readv", 65, [.res .fd, .ptr .out IOVEC2 false, .const 2], .none⟩,
   ⟨"writev", 66, [.res .fd, .ptr .in IOVEC2 false, .const 2], .none⟩,
   ⟨"preadv", 69, [.res .fd, .ptr .out IOVEC2 false, .const 2, .int 32 false, .int 32 false],
      .none⟩,
   ⟨"pwritev", 70, [.res .fd, .ptr .in IOVEC2 false, .const 2, .int 32 false, .int 32 false],
      .none⟩,
   ⟨"preadv2", 286, [.res .fd, .ptr .out IOVEC2 false, .const 2, .int 32 false, .int 32 false,
      .flags RWF_FLAGS true], .none⟩,
   ⟨"pwritev2", 287, [.res .fd, .ptr .in IOVEC2 false, .const 2, .int 32 false, .int 32 false,
      .flags RWF_FLAGS true], .none⟩,
   ⟨"openat2", 437, [.res .fd, .ptr .in (.stringConst PATH_POOL) false, .ptr .in OPEN_HOW false,
      .len 2], .ret .fd⟩,
   ⟨"close_range", 436, [.res .fd, .res .fd, .flags CLOSE_RANGE_FLAGS true], .none⟩,
   ⟨"pidfd_open", 434, [.int 32 false, .const 0], .ret .fd⟩,
   ⟨"pidfd_getfd", 438, [.res .fd, .int 32 false, .const 0], .ret .fd⟩,
   ⟨"fcntl64$getfl", 25, [.res .fd, .const 3], .none⟩,
   ⟨"fcntl64$getfd", 25, [.res .fd, .const 1], .none⟩,
   ⟨"fcntl64$setfd", 25, [.res .fd, .const 2, .flags FD_FLAGS true], .none⟩,
   ⟨"fcntl64$dupfd_cloexec", 25, [.res .fd, .const F_DUPFD_CLOEXEC, .int 32 false], .ret .fd⟩,
   ⟨"ioctl$TIOCGWINSZ", 29, [.res .fd, .const TIOCGWINSZ, .ptr .out WINSIZE false], .none⟩,
   ⟨"ioctl$TIOCSWINSZ", 29, [.res .fd, .const TIOCSWINSZ, .ptr .in WINSIZE false], .none⟩,
   ⟨"ioctl$TCGETS", 29, [.res .fd, .const TCGETS, .ptr .out TERMIOS false], .none⟩,
   ⟨"ioctl$TCSETS", 29, [.res .fd, .const TCSETS, .ptr .in TERMIOS false], .none⟩,
   ⟨"ioctl$FIONREAD", 29, [.res .fd, .const FIONREAD, .ptr .out (.int 32 false) false], .none⟩,
   ⟨"ioctl$FIONBIO", 29, [.res .fd, .const FIONBIO, .ptr .in (.int 32 false) false], .none⟩,
   ⟨"ioctl$SIOCGIFFLAGS", 29, [.res .sock, .const SIOCGIFFLAGS, .ptr .inOut IFREQ false], .none⟩,
   ⟨"ioctl$SIOCGIFCONF", 29, [.res .sock, .const SIOCGIFCONF, .ptr .inOut IFCONF false], .none⟩,
   ⟨"socket$netlink", 198, [.const AF_NETLINK, .flags NETLINK_SOCK_TYPE false,
      .flags NETLINK_PROTO false], .ret .sock⟩,
   ⟨"bind$inet", 200, [.res .sock, .ptr .in SOCKADDR_IN false, .len 1], .none⟩,
   ⟨"bind$un", 200, [.res .sock, .ptr .in SOCKADDR_UN false, .len 1], .none⟩,
   ⟨"bind$nl", 200, [.res .sock, .ptr .in SOCKADDR_NL false, .len 1], .none⟩,
   ⟨"connect$inet", 203, [.res .sock, .ptr .in SOCKADDR_IN false, .len 1], .none⟩,
   ⟨"connect$un", 203, [.res .sock, .ptr .in SOCKADDR_UN false, .len 1], .none⟩,
   ⟨"sendto$inet", 206, [.res .sock, .ptr .in (.buffer (.range 0 128)) false, .len 1,
      .flags SEND_FLAGS true, .ptr .in SOCKADDR_IN true, .len 4], .none⟩,
   ⟨"setsockopt$so_reuseaddr", 208, [.res .sock, .const SOL_SOCKET, .const SO_REUSEADDR,
      .ptr .in (.int 32 false) false, .len 3], .none⟩,
   ⟨"setsockopt$tcp_nodelay", 208, [.res .sock, .const IPPROTO_TCP, .const TCP_NODELAY,
      .ptr .in (.int 32 false) false, .len 3], .none⟩,
   ⟨"ioctl$TIOCGPGRP", 29, [.res .fd, .const TIOCGPGRP, .ptr .out (.int 32 true) false], .none⟩,
   ⟨"ioctl$TIOCSPGRP", 29, [.res .fd, .const TIOCSPGRP, .ptr .in (.int 32 true) false], .none⟩,
   ⟨"ioctl$FIOASYNC", 29, [.res .fd, .const FIOASYNC, .ptr .in (.int 32 false) false], .none⟩,
   ⟨"ioctl$SIOCSIFFLAGS", 29, [.res .sock, .const SIOCSIFFLAGS, .ptr .in IFREQ false], .none⟩,
   ⟨"ioctl$SIOCGIFHWADDR", 29, [.res .sock, .const SIOCGIFHWADDR, .ptr .inOut IFREQ false], .none⟩,
   ⟨"setsockopt$so_sndbuf", 208, [.res .sock, .const SOL_SOCKET, .const SO_SNDBUF,
      .ptr .in (.int 32 false) false, .len 3], .none⟩,
   ⟨"setsockopt$netlink_add_membership", 208, [.res .sock, .const SOL_NETLINK,
      .const NETLINK_ADD_MEMBERSHIP, .ptr .in (.int 32 false) false, .len 3], .none⟩,
   ⟨"sendmsg$nl", 211, [.res .sock, .ptr .in MSGHDR_NL false, .flags SEND_FLAGS true], .none⟩,
   ⟨"openat$fail_nth", 56, [.res .fd, .ptr .in (.stringConst FAIL_NTH_PATH) false, .const 1,
      .const 0], .ret .fd⟩,
   ⟨"write$fail_nth", 64, [.res .fd, .ptr .in (.stringConst FAIL_NTH_COUNTS) false, .len 1],
      .none⟩,
   ⟨"vmsplice", 75, [.res .fd, .ptr .in IOVEC2 false, .const 2, .flags SPLICE_FLAGS true], .none⟩,
   ⟨"splice", 76, [.res .fd, .ptr .inOut (.int 64 true) true, .res .fd,
      .ptr .inOut (.int 64 true) true, .int 32 false, .flags SPLICE_FLAGS true], .none⟩,
   ⟨"tee", 77, [.res .fd, .res .fd, .int 32 false, .flags SPLICE_FLAGS true], .none⟩,
   ⟨"unshare", 97, [.flags UNSHARE_FLAGS true], .none⟩,
   ⟨"openat$ns", 56, [.res .fd, .ptr .in (.stringConst NS_PATHS) false, .const 0, .const 0],
      .ret .fd⟩,
   ⟨"setns", 268, [.res .fd, .flags NSTYPE_FLAGS false], .none⟩,
   ⟨"add_key", 217, [.ptr .in (.stringConst KEY_TYPES) false,
      .ptr .in (.stringConst KEY_DESCRIPTIONS) false, .ptr .in (.buffer (.range 0 64)) true,
      .len 2, .flags KEYRING_SPECIAL false], .ret .key⟩,
   ⟨"request_key", 218, [.ptr .in (.stringConst KEY_TYPES) false,
      .ptr .in (.stringConst KEY_DESCRIPTIONS) false,
      .ptr .in (.stringConst KEY_CALLOUT_INFO) true, .flags KEYRING_SPECIAL false], .ret .key⟩,
   ⟨"keyctl$get_keyring_id", 219, [.const KEYCTL_GET_KEYRING_ID, .flags KEYRING_SPECIAL false,
      .int 32 false], .ret .key⟩,
   ⟨"keyctl$describe", 219, [.const KEYCTL_DESCRIBE, .res .key,
      .ptr .out (.buffer (.range 0 256)) false, .len 2], .none⟩,
   ⟨"keyctl$read", 219, [.const KEYCTL_READ, .res .key, .ptr .out (.buffer (.range 0 256)) false,
      .len 2], .none⟩,
   ⟨"keyctl$revoke", 219, [.const KEYCTL_REVOKE, .res .key], .none⟩,
   ⟨"keyctl$unlink", 219, [.const KEYCTL_UNLINK, .res .key, .flags KEYRING_SPECIAL false], .none⟩,
   ⟨"process_vm_readv", 270, [.int 32 true, .ptr .out IOVEC2 false, .const 2,
      .ptr .in REMOTE_IOVEC2 false, .const 2, .int 32 false], .none⟩,
   ⟨"process_vm_writev", 271, [.int 32 true, .ptr .in IOVEC2 false, .const 2,
      .ptr .in REMOTE_IOVEC2 false, .const 2, .int 32 false], .none⟩]

end FuzzSoft

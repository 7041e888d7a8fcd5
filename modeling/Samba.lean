import Samba.Ntvfs.BrlockTdb
import Samba.Ntvfs.BrlockSafety
import Samba.Ntvfs.BrlockWakeup
import Samba.Ntvfs.OpendbSafety
import Samba.Lib.Bytes
import Samba.Tdb.Context
import Samba.Tdb.WriteList
import Samba.Tdb.Io
import Samba.Tdb.Freelist
import Samba.Tdb.Store
import Samba.Tdb.WriteListRefine
import Samba.Tdb.Transaction
import Samba.Lib.Links
import Samba.Tdb.Access
import Samba.Tdb.Layout
import Samba.Tdb.Allocate
import Samba.Tdb.Accounting
import Samba.Tdb.Chain
import Samba.Tdb.ChainEdit
import Samba.Tdb.Lookup
import Samba.Tdb.FiniteMap
import Samba.Tdb.Crash
import Samba.Tdb.Recovery
import Samba.Tdb.Commit
import Samba.Tdb.CrashAtomic
import Samba.Tdb.RecoveryRecord
import Samba.Util.Idtree
import Samba.Util.IdtreeMap
import Samba.Util.IdtreeRun
import Samba.Ldb.Dn
import Samba.Ldb.DnText
import Samba.Ldb.DnTail
import Samba.Ldb.DnMiddle
import Samba.Ldb.DnCompare
import Samba.Ldb.DnKey
import Samba.Ldb.Match
import Samba.Ldb.AttribHandlers
import Samba.Ldb.AttribAgree
import Samba.Ldb.Parse
import Samba.Ldb.ParseGrammar
import Samba.Ldb.ParsePrint
import Samba.Ctdb.Io
import Samba.Ntvfs.Notify
import Samba.Ntvfs.OpendbPending
import Samba.Ntvfs.NotifyTrigger
import Samba.Wrepl.Winsdb
import Samba.Wrepl.ApplyRecords
import Samba.Wrepl.SgroupMerge
import Samba.Ldb.Pack
import Samba.Ctdb.Call
import Samba.Ctdb.Custody
import Samba.Ctdb.Mastership
import Samba.Ldb.DnSplice
import Samba.Ldb.DnEdit
import Samba.Wrepl.WinsdbDn
import Samba.Security.AccessCheck
import Samba.Nbt.WreplName
import Samba.Nbt.Name
import Samba.Nbt.NameWire
import Samba.Nbt.NameEcho
import Samba.Charset.Iconv
import Samba.Charset.Chunks
import Samba.Charset.Charcnv
import Samba.Ndr.Str
import Samba.Lib.Ber
import Samba.Libcli.Asn1
import Samba.Security.Text
import Samba.Security.Sddl
import Samba.Security.SddlFlags
import Samba.Security.SddlSid
import Samba.Security.SddlAce
import Samba.Security.SddlFaithful
import Samba.Auth.Credentials
import Samba.Auth.Schannel
import Samba.Auth.Replay
import Samba.Lib.Framing
import Samba.Stream.Packet
import Samba.Stream.PacketWakeup
import Samba.Stream.PacketOrder
import Samba.Dsdb.Converge
import Samba.Dsdb.Uptodate
import Samba.Charset.Codepoint
import Samba.Ntvfs.Shortname
import Samba.Ntvfs.ShortnameCache
import Samba.Ntvfs.Resolve
import Samba.Ntvfs.ResolveInside
import Samba.Ntvfs.ResolveReduced
import Samba.Libcli.Asn1Calls
import Samba.Libcli.LdapFilter
import Samba.Ldb.MatchOrder
import Samba.Ldb.PagedResults
import Samba.Ldb.PagedStores
import Samba.Ldb.PagedIndependence
import Samba.Ldb.PagedClient
import Samba.Lib.SharedExclusive
import Samba.Ntvfs.PvfsGrants
import Samba.Wrepl.Scavenging
import Samba.Ntvfs.PvfsLockEffect
import Samba.Ntvfs.PvfsLockRuns
import Samba.Ntvfs.PvfsLockClose
import Samba.Ntvfs.PvfsLockRollback
import Samba.Smb.SessionSetup
import Samba.Smb.SigningSequence
import Samba.Dsdb.Samldb
import Samba.Dsdb.RidCounter
import Samba.Dsdb.RidHistory
import Samba.Dsdb.RidRace
import Samba.Ctdb.IoTermination
import Samba.Ldb.PackBounds
import Samba.Ldb.Wildcard
import Samba.Ntvfs.BrlockRange
import Samba.Ntvfs.OpendbCanOpen
import Samba.Ldb.DnGrammar
import Samba.Lib.Search
import Samba.Util.MsFnmatch
import Samba.Wrepl.AddrList
import Samba.Wrepl.WackAllow
import Samba.Util.MsFnmatchMemo
import Samba.Tdb.LockedDelete
import Samba.Tdb.Traverse
import Samba.Lib.TwosComplement
import Samba.Libcli.Asn1Integer
import Samba.Security.FirstMatch
import Samba.Libcli.Asn1Oid
import Samba.Libcli.Asn1Inside
import Samba.Libcli.Asn1OidRead
import Samba.Nbt.NamePacket
import Samba.Security.SidText
import Samba.Tdb.Expand
import Samba.Tdb.TraverseOnce
import Samba.Libcli.LdapMessage
import Samba.Libcli.LdapRoundTrip
import Samba.Ldb.Base64
import Samba.Ldb.Base64InPlace
import Samba.Charset.Surrogates
import Samba.Charset.Stepping
import Samba.Charset.SameCharacters
import Samba.Ntvfs.ReduceName
import Samba.Ntvfs.ShortnameRoundTrip
import Samba.Ntvfs.ShortnameDigits
import Samba.Dsdb.MergeLoop
import Samba.Lib.Shuffle
import Samba.Ldb.Qsort
import Samba.Dsdb.MetaDataOrder
import Samba.Dsdb.PrefixMap
import Samba.Ntvfs.PvfsLockCancel
import Samba.Lib.Reads
import Samba.Smb.Receive
import Samba.Lib.Walks
import Samba.Smb.Chain
import Samba.Smb.RequestPull

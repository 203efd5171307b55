import Plan9.Libc.RWLockRuns
import Plan9.Libc.QLockRuns
import Plan9.Venti.BloomFacts
import Plan9.Venti.IndexFacts
import Plan9.Fossil.MetaRuns
import Plan9.Fossil.Erase
import Plan9.Fossil.CacheFacts
import Plan9.Libavl.WalkRuns
import Plan9.Venti.WhackFacts
import Plan9.Libmp.Crt
import Plan9.Ip.RouteCacheRuns
import Plan9.Ip.FragmentRuns
import Plan9.Ndb.MessageRuns
import Plan9.Port.PortClockRuns
import Plan9.Libthread.ChannelRuns
import Plan9.Lib9p.ReqRuns
import Plan9.Lib9p.ServeRuns
import Plan9.Libc.RuneStream
import Plan9.Libc.StrtolFacts
import Plan9.Libc.CleannameFrame
import Plan9.Libc.QuoteFmt
import Plan9.Acme.FileUndo
import Plan9.Libc.EncodeRoom
import Plan9.Libc.QsortFacts
import Plan9.Libc.VlrtFacts
import Plan9.Libc.CtimeFacts
import Plan9.Fossil.VictimsFacts
import Plan9.Fossil.Address
import Plan9.Fossil.MetaUnpackFacts
import Plan9.Venti.Amap
import Plan9.Venti.PacketFragments
import Plan9.Libmp.DivRuns
import Plan9.Libmp.Euclid
import Plan9.Libmp.Exp
import Plan9.Venti.UnwhackSafe
import Plan9.Venti.BucketUpdate
import Plan9.Venti.CigRuns
import Plan9.Libmp.MulFacts
import Plan9.Ip.LookupTurns
import Plan9.Ip.RouteFlush
import Plan9.Ndb.RecordExtent
import Plan9.Libthread.ChannelRing
import Plan9.Cc.Evconst
import Plan9.Cc8.Mul
import Plan9.Acme.ElogRuns
import Plan9.Libsec.Modes
import Plan9.Libsec.Rc4
import Plan9.Libsec.Rsa
